import Serverlessd.Lib.Router
import Serverlessd.Runtime.Serverless.Task

namespace Serverlessd

inductive Method
  | get
  | post
  | other (name : String)
  deriving DecidableEq

/-- What the handlers read of a request.  The segments of the path are decoded; the header
is there if it is a string, and the payload if it can be read. -/
structure Request where
  method : Method
  path : List String
  authorization : Option String
  payload : Option ByteArray

inductive StatusCode
  | badRequest
  | unauthorized
  | notFound
  deriving DecidableEq

structure Claims where
  sub : String
  for_ : String
  hash : String
  iat : Nat
  exp : Nat
  jti : String
  deriving DecidableEq

inductive Body
  | text (s : String)
  | ok
  | errored (error : String)
  | failed (err : CodeStoreError)
  deriving DecidableEq

structure Exchange where
  serverless : Bool := false
  claims : Option Claims := none
  status : Option StatusCode := none
  body : Option Body := none
  call : Option Op := none
  panicked : Bool := false

def Exchange.stamped (x : Exchange) : Bool := x.status.isSome

/-- How `decode` ends.  `jsonwebtoken` 10 panics when it is built without a crypto backend. -/
inductive Decoded
  | ok (claims : Claims)
  | err
  | panic
  deriving DecidableEq

def Decoded.toOption : Decoded → Option Claims
  | .ok claims => some claims
  | .err | .panic => none

/-- `sha2`, the parts of a token that are JSON, and
`decode::<Claims>(token, key, &Validation::new(Algorithm::HS256))` at a time. -/
structure Crypto where
  digest : ByteArray → ByteArray
  algorithm : ByteArray → Option String
  claims : ByteArray → Option Claims
  decode : (key : ByteArray) → (token : List Char) → (now : Nat) → Decoded

def hexEncode (bytes : ByteArray) : String :=
  String.ofList (bytes.data.toList.flatMap fun b =>
    [Nat.digitChar (b.toNat / 16), Nat.digitChar (b.toNat % 16)])

def base64Digit (n : Nat) : Char :=
  "ABCDEFGHIJKLMNOPQRSTUVWXYZabcdefghijklmnopqrstuvwxyz0123456789-_".toList.getD (n % 64) 'A'

def base64Url : List UInt8 → List Char
  | a :: b :: c :: rest =>
    let n := a.toNat * 65536 + b.toNat * 256 + c.toNat
    base64Digit (n / 262144) :: base64Digit (n / 4096) :: base64Digit (n / 64) :: base64Digit n ::
      base64Url rest
  | [a, b] =>
    let n := a.toNat * 1024 + b.toNat * 4
    [base64Digit (n / 4096), base64Digit (n / 64), base64Digit n]
  | [a] => [base64Digit (a.toNat / 4), base64Digit (a.toNat * 16)]
  | [] => []

def hmac (hash : ByteArray → ByteArray) (key message : ByteArray) : ByteArray :=
  let key := if 64 < key.size then hash key else key
  let block := key.data.toList ++ List.replicate (64 - key.size) 0
  let pad (x : UInt8) : ByteArray := ⟨(block.map (· ^^^ x)).toArray⟩
  hash (pad 0x5c ++ hash (pad 0x36 ++ message))

namespace Crypto

def signedPart (header payload : ByteArray) : List Char :=
  base64Url header.data.toList ++ '.' :: base64Url payload.data.toList

def Signed (crypto : Crypto) (key : ByteArray) (token : List Char) (claims : Claims) : Prop :=
  ∃ header payload, crypto.algorithm header = some "HS256" ∧ crypto.claims payload = some claims ∧
    token = signedPart header payload ++ '.' :: base64Url
      (hmac crypto.digest key (String.ofList (signedPart header payload)).toUTF8).data.toList

/-- `decode` accepts only tokens that are signed with its key and that have not expired.  A
`Validation` allows for a difference between clocks, of 60 seconds by default. -/
def Verifies (crypto : Crypto) (key : ByteArray) (leeway : Nat) : Prop :=
  ∀ token now claims, crypto.decode key token now = .ok claims →
    crypto.Signed key token claims ∧ now ≤ claims.exp + leeway

end Crypto

def trimBearer : List Char → List Char
  | 'B' :: 'e' :: 'a' :: 'r' :: 'e' :: 'r' :: ' ' :: token => trimBearer token
  | token => token

structure AuthMiddleware where
  key : ByteArray

namespace AuthMiddleware

def new (secret : String) : AuthMiddleware := ⟨secret.toUTF8⟩

def handle (self : AuthMiddleware) (crypto : Crypto) (req : Request) (now : Nat) (x : Exchange) :
    Exchange × Router.Flow :=
  match req.authorization with
  | none => ({ x with status := some .unauthorized }, .skipRest)
  | some token =>
    match crypto.decode self.key (trimBearer token.toList) now with
    | .ok claims =>
      match req.payload with
      | none => ({ x with panicked := true }, .skipRest)
      | some payload =>
        -- without `skip_rest`: only the status keeps the request from the next handler
        if claims.hash ≠ hexEncode (crypto.digest payload) then
          ({ x with status := some .badRequest }, .next)
        else ({ x with claims := some claims }, .next)
    | .err => ({ x with status := some .unauthorized }, .skipRest)
    | .panic => ({ x with panicked := true }, .skipRest)

end AuthMiddleware

end Serverlessd
