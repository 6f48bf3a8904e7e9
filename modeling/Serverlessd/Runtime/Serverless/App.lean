import Serverlessd.Runtime.Serverless.AppSecurity

/-! The HTTP server, and the requests on their way through it. -/

namespace Serverlessd

inductive Handler
  | inject
  | auth
  | apiUploadWorker
  | apiRemoveWorker
  | worker
  | wildcard
  deriving DecidableEq

def router : Router Method Handler :=
  Router.new.hoop .inject
    |>.push (Router.new.hoop .auth
      |>.push ((Router.withPath [.const "_", .const "upload", .named "name"]).method .post .apiUploadWorker)
      |>.push ((Router.withPath [.const "_", .const "remove", .named "name"]).method .post .apiRemoveWorker))
    |>.push ((Router.withPath [.const "worker", .named "name", .rest "rest"]).method .get .worker)
    |>.push ((Router.withPath [.rest ""]).goal .wildcard)

structure Context where
  req : Request
  params : List (String × String)
  now : Nat

/-- The call is made on the handle in the depot, which is unwrapped. -/
def Exchange.obtain (x : Exchange) (op : Op) : Exchange :=
  if x.serverless then { x with call := some op } else { x with panicked := true }

namespace Context

variable (ctx : Context) (x : Exchange)

def withName (f : String → Exchange) : Exchange :=
  match ctx.params.lookup "name" with
  | some name => f name
  | none => { x with panicked := true }

def wildcard : Exchange := { x with body := some (.text "\x7b\x7d") }

def worker : Exchange := ctx.withName x fun name => x.obtain (.createWorker name)

def apiUploadWorker : Exchange :=
  ctx.withName x fun name =>
    match ctx.req.payload with
    | some payload => x.obtain (.uploadWorker name payload)
    | none => { x with body := some (.errored "failed to parse body") }

def apiRemoveWorker : Exchange := ctx.withName x fun name => x.obtain (.removeWorker name)

end Context

structure Server where
  secret : String
  crypto : Crypto

namespace Handler

def handle (srv : Server) (ctx : Context) : Handler → Exchange → Exchange × Router.Flow
  | .inject, x => ({ x with serverless := true }, .next)
  | .auth, x => (AuthMiddleware.new srv.secret).handle srv.crypto ctx.req ctx.now x
  | .apiUploadWorker, x => (ctx.apiUploadWorker x, .next)
  | .apiRemoveWorker, x => (ctx.apiRemoveWorker x, .next)
  | .worker, x => (ctx.worker x, .next)
  | .wildcard, x => (Context.wildcard x, .next)

def resume (x : Exchange) (op : Op) (answer : Answer) : Exchange :=
  let x := { x with call := none }
  match op, answer with
  | .createWorker _, .created (some (pod, wrk)) => { x with call := some (.sendHttpToWorker pod wrk) }
  | .createWorker _, _ => { x with body := some (.errored "failed to create worker") }
  | .sendHttpToWorker _ _, .http result => { x with body := some (.text result) }
  | .sendHttpToWorker _ _, _ => { x with body := some (.errored "failed to execute worker") }
  | .uploadWorker _ _, answer =>
    match Runtime.uploadResult answer with
    | some err => { x with body := some (.failed err) }
    | none => { x with body := some .ok }
  | .removeWorker _, _ => { x with body := some .ok }

end Handler

def Server.service (srv : Server) (req : Request) (now : Nat) : Exchange :=
  match router.detect req.method ⟨req.path, []⟩ with
  | some (chain, path) =>
    Router.callNext (Handler.handle srv ⟨req, path.params, now⟩) Exchange.stamped chain {}
  | none => { status := some .notFound }

structure Visit where
  req : Request
  now : Nat
  exchange : Exchange
  call : Nat

structure App where
  runtime : Runtime
  visits : List Visit := []

inductive AppAct
  | request (req : Request) (now : Nat)
  | resume (visit : Nat)
  | runtime (a : RuntimeAct)

def Runtime.returned (s : Runtime) (call : Nat) : Option Answer :=
  s.history.findSome? fun
    | .returned c answer => if c = call then some answer else none
    | _ => none

namespace App

def start (c : Config) : App where
  runtime := .start c

def issue (s : App) (client visit : Nat) (v : Visit) : Option App :=
  let s := { s with visits := s.visits.set visit { v with call := s.runtime.calls.length } }
  match v.exchange.call with
  | none => some s
  | some op => (s.runtime.step (.issue client op)).map fun runtime => { s with runtime }

/-- A step of the server.  The clients of the visits are numbered from `first` on. -/
def stepFrom (first : Nat) (srv : Server) (s : App) : AppAct → Option App
  | .request req now =>
    let v : Visit := ⟨req, now, srv.service req now, 0⟩
    { s with visits := s.visits ++ [v] }.issue (s.visits.length + first) s.visits.length v
  | .resume visit =>
    match s.visits[visit]? with
    | none => none
    | some v =>
      match v.exchange.call, s.runtime.returned v.call with
      | some op, some answer =>
        s.issue (visit + first) visit { v with exchange := Handler.resume v.exchange op answer }
      | _, _ => none
  | .runtime (.issue _ _) => none
  | .runtime a => (s.runtime.step a).map fun runtime => { s with runtime }

def step (srv : Server) (s : App) (a : AppAct) : Option App := s.stepFrom 0 srv a

def machine (srv : Server) (c : Config) : Machine App AppAct := ⟨start c, step srv⟩

end App

end Serverlessd
