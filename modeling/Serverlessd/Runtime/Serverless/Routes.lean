import Serverlessd.Runtime.Serverless.Guarded

namespace Serverlessd

inductive Route
  | guarded (route : GuardedRoute) (name : String)
  | worker (name : String) (rest : List String)
  | wildcard

def routeOf : Method → List String → Route
  | .post, ["_", "upload", name] => .guarded .upload name
  | .post, ["_", "remove", name] => .guarded .remove name
  | .get, "worker" :: name :: rest => .worker name rest
  | _, _ => .wildcard

namespace Route

def chain : Route → List Handler
  | guarded route _ => [.inject, .auth, route.handler]
  | worker _ _ => [.inject, .worker]
  | wildcard => [.inject, .wildcard]

def params (path : List String) : Route → List (String × String)
  | guarded _ name => [("name", name)]
  | worker name rest => [("rest", "/".intercalate rest), ("name", name)]
  | wildcard => [("", "/".intercalate path)]

end Route

section Detect

variable {m : Method} {path : List String}

theorem detect_guarded_none {segment : String} {h : Handler}
    (hn : m = .post → ∀ name, path ≠ ["_", segment, name]) :
    ((Router.withPath [.const "_", .const segment, .named "name"]).method .post h).detect m
      ⟨path, []⟩ = none := by
  rw [Router.detect_method]
  rcases path with _ | ⟨a, _ | ⟨b, _ | ⟨name, rest⟩⟩⟩
  · rfl
  · by_cases ha : a = "_" <;> simp [Router.PathPart.detect, ha]
  · by_cases ha : a = "_" <;> by_cases hb : b = segment <;> simp [Router.PathPart.detect, ha, hb]
  · by_cases ha : a = "_" <;> by_cases hb : b = segment <;> simp [Router.PathPart.detect, ha, hb]
    rintro rfl rfl
    exact hn rfl name (by rw [ha, hb])

theorem detect_worker_none {h : Handler} (hn : m = .get → ∀ name rest, path ≠ "worker" :: name :: rest) :
    ((Router.withPath [.const "worker", .named "name", .rest "rest"]).method .get h).detect m
      ⟨path, []⟩ = none := by
  rw [Router.detect_method]
  rcases path with _ | ⟨a, _ | ⟨name, rest⟩⟩
  · rfl
  · by_cases ha : a = "worker" <;> simp [Router.PathPart.detect, ha]
  · by_cases ha : a = "worker" <;> simp [Router.PathPart.detect, ha]
    rintro rfl
    exact hn rfl name rest (by rw [ha])

theorem detect_router (m : Method) (path : List String) :
    router.detect m ⟨path, []⟩ =
      some ((routeOf m path).chain, ⟨[], (routeOf m path).params path⟩) := by
  have htree : router = .node [] [.inject] none
    [.node [] [.auth] none
      [(Router.withPath [.const "_", .const "upload", .named "name"]).method .post .apiUploadWorker,
        (Router.withPath [.const "_", .const "remove", .named "name"]).method .post .apiRemoveWorker],
      (Router.withPath [.const "worker", .named "name", .rest "rest"]).method .get .worker,
      (Router.withPath [.rest ""]).goal .wildcard] := rfl
  have hwild : ((Router.withPath [.rest ""]).goal Handler.wildcard).detect m ⟨path, []⟩ =
      some ([.wildcard], ⟨[], [("", "/".intercalate path)]⟩) := rfl
  rw [htree]
  simp only [Router.detect_group, Router.detectFirst_cons, hwild]
  unfold routeOf
  split
  · simp [Router.detect_method, Router.PathPart.detect, Route.chain, Route.params,
      GuardedRoute.handler]
  · simp [Router.detect_method, Router.PathPart.detect, Route.chain, Route.params,
      GuardedRoute.handler]
  · simp [Router.detect_method, Router.PathPart.detect, Router.detectFirst, Route.chain,
      Route.params]
  · rename_i hupload hremove hworker
    rw [detect_guarded_none fun hm name hp => hupload name hm hp,
      detect_guarded_none fun hm name hp => hremove name hm hp,
      detect_worker_none fun hm name rest hp => hworker name rest hm hp]
    rfl

end Detect

namespace Server

def begun (srv : Server) (req : Request) (now : Nat) : Route → Exchange
  | .guarded route name => srv.stopped route name req now (srv.verdict req now)
  | .worker name _ => { serverless := true, call := some (.createWorker name) }
  | .wildcard => { serverless := true, body := some (.text "\x7b\x7d") }

theorem service_eq (srv : Server) (req : Request) (now : Nat) :
    srv.service req now = srv.begun req now (routeOf req.method req.path) := by
  rw [service, detect_router]
  cases routeOf req.method req.path with
  | guarded route name => exact callNext_guarded srv route rfl
  | worker | wildcard => rfl

end Server

end Serverlessd
