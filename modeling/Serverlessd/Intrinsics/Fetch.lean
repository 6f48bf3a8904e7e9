import Mathlib.Logic.Function.Basic

/-! The `fetch` intrinsic, over what it uses of `v8` and `reqwest`. -/

namespace Serverlessd

inductive Completion (α : Type)
  | normal (a : α)
  | threw
  | terminated

/-- A JavaScript value, by what it gives when it is converted to a string, and an object also
by what its properties give when they are read.  The strings are lossy ones of Rust. -/
inductive JsValue
  | undefined
  | null
  | primitive (string : String)
  | symbol
  | object (string : Completion String) (get : String → Completion JsValue)
      (ownPropertyNames : Completion (List String))

def JsValue.toStr : JsValue → Completion String
  | undefined => .normal "undefined"
  | null => .normal "null"
  | primitive string => .normal string
  | symbol => .threw
  | object string _ _ => string

inductive Exception
  | script
  | termination
  | typeError (message : String)
  deriving DecidableEq

structure Scope where
  exception : Option Exception := none
  deriving DecidableEq

/-- What V8 does while the execution is terminating: what a call gives, which exception a throw
leaves, and whether a resolver is made. -/
structure V8 where
  call : {α : Type} → Completion α → Option α
  throw : String → Exception
  resolver : Bool

namespace Scope

def terminating (scope : Scope) : Bool := scope.exception = some .termination

def call (v8 : V8) {α : Type} (scope : Scope) (c : Completion α) : Option α × Scope :=
  if scope.terminating then (v8.call c, scope)
  else
    match c with
    | .normal a => (some a, scope)
    | .threw => (none, ⟨some .script⟩)
    | .terminated => (none, ⟨some .termination⟩)

def throw (v8 : V8) (scope : Scope) (message : String) : Scope :=
  ⟨some (if scope.terminating then v8.throw message else .typeError message)⟩

def resolver (v8 : V8) (scope : Scope) : Bool := !scope.terminating || v8.resolver

end Scope

/-- What `fetch` uses of `reqwest`.  A parser that fails gives `none`, and so does a map of
headers that has no room; `request` gives the headers of a new request for a URL. -/
structure Reqwest where
  Method : Type
  HeaderName : Type
  HeaderValue : Type
  HeaderMap : Type
  methodFromStr : String → Option Method
  headerNameFromStr : String → Option HeaderName
  headerValueFromStr : String → Option HeaderValue
  GET : Method
  headerMapNew : HeaderMap
  insert : HeaderMap → HeaderName → HeaderValue → Option HeaderMap
  get : HeaderMap → HeaderName → Option HeaderValue
  request : String → Option HeaderMap
  replaceHeaders : HeaderMap → HeaderMap → Option HeaderMap
  methodStr : Method → String
  headerNameStr : HeaderName → String
  headerValueStr : HeaderValue → String

/-- The headers are missing if the URL was not accepted: then sending gives the error. -/
structure RequestBuilder (http : Reqwest) where
  method : http.Method
  url : String
  headers : Option http.HeaderMap

inductive Promise
  | pending
  | rejected (exc : Exception)
  deriving DecidableEq

inductive Outcome (http : Reqwest)
  | panicked
  | returned (scope : Scope) (rv : Option Promise) (sent : Option (RequestBuilder http))

namespace RequestBuilder

variable {http : Reqwest}

def new (method : http.Method) (url : String) : RequestBuilder http :=
  ⟨method, url, http.request url⟩

def withHeaders (rq : RequestBuilder http) (headers : http.HeaderMap) :
    Except (Outcome http) (RequestBuilder http) :=
  match rq.headers with
  | none => .ok rq
  | some base =>
    match http.replaceHeaders base headers with
    | some headers => .ok { rq with headers := some headers }
    | none => .error .panicked

end RequestBuilder

namespace Fetch

variable {http : Reqwest}

/-- `some!` and `ok!` without `else` -/
def orReturn {α : Type} (scope : Scope) : Option α → Except (Outcome http) α
  | some a => .ok a
  | none => .error (.returned scope none none)

def reject (v8 : V8) (scope : Scope) (message : String) : Outcome http :=
  let scope := scope.throw v8 message
  if scope.resolver v8 then .returned scope (some (.rejected (.typeError message))) none
  else .panicked

def method (v8 : V8) (get : String → Completion JsValue) (scope : Scope) :
    Except (Outcome http) (http.Method × Scope) :=
  let (item, scope) := scope.call v8 (get "method")
  let (name, scope) : String × Scope :=
    match item with
    | some item =>
      let (string, scope) := scope.call v8 item.toStr
      (string.getD "", scope)
    | none => ("GET", scope)
  match http.methodFromStr name with
  | some method => .ok (method, scope)
  | none => .error (reject v8 scope "fetch: Invalid method")

/-- The names are those of an array of V8's own: no JavaScript runs when they are read. -/
def insertHeaders (v8 : V8) (get : String → Completion JsValue) :
    List String → Scope → http.HeaderMap → Except (Outcome http) (http.HeaderMap × Scope)
  | [], scope, rqHeaders => .ok (rqHeaders, scope)
  | key :: keys, scope, rqHeaders => do
    let (val, scope) := scope.call v8 (get key)
    let val ← orReturn scope val
    let (string, scope) := scope.call v8 val.toStr
    let string ← orReturn scope string
    let name ← orReturn scope (http.headerNameFromStr key)
    let value ← orReturn scope (http.headerValueFromStr string)
    match http.insert rqHeaders name value with
    | some rqHeaders => insertHeaders v8 get keys scope rqHeaders
    | none => .error .panicked

def headers (v8 : V8) (get : String → Completion JsValue) (scope : Scope)
    (rq : RequestBuilder http) : Except (Outcome http) (RequestBuilder http × Scope) := do
  let (headersK, scope) := scope.call v8 (get "headers")
  match ← orReturn scope headersK with
  | .object _ get names =>
    let (names, scope) := scope.call v8 names
    let names ← orReturn scope names
    let (rqHeaders, scope) ← insertHeaders v8 get names scope http.headerMapNew
    let rq ← rq.withHeaders rqHeaders
    return (rq, scope)
  | _ => return (rq, scope)

def send (v8 : V8) (scope : Scope) (rq : RequestBuilder http) : Outcome http :=
  if scope.resolver v8 then .returned scope (some .pending) (some rq)
  else .returned scope none none

end Fetch

open Fetch in
def fetch (v8 : V8) (http : Reqwest) : List JsValue → Outcome http
  | [] => reject v8 {} "fetch: At least 1 argument required, but only 0 passed"
  | url :: rest =>
    -- the conversion of the URL is unwrapped
    match Scope.call v8 {} url.toStr with
    | (none, _) => .panicked
    | (some url, scope) =>
      match rest.headD .undefined with
      | .object _ get _ =>
        match Fetch.method v8 get scope with
        | .error outcome => outcome
        | .ok (method, scope) =>
          match Fetch.headers v8 get scope (.new method url) with
          | .error outcome => outcome
          | .ok (rq, scope) => send v8 scope rq
      | _ => send v8 scope (.new http.GET url)

end Serverlessd
