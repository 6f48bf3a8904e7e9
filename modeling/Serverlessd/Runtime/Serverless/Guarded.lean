import Serverlessd.Runtime.Serverless.AppLaws

namespace Serverlessd

inductive GuardedRoute
  | upload
  | remove

namespace GuardedRoute

def segment : GuardedRoute → String
  | upload => "upload"
  | remove => "remove"

def handler : GuardedRoute → Handler
  | upload => .apiUploadWorker
  | remove => .apiRemoveWorker

def op (name : String) (payload : ByteArray) : GuardedRoute → Op
  | upload => .uploadWorker name payload
  | remove => .removeWorker name

def body (answer : Answer) : GuardedRoute → Body
  | upload =>
    match Runtime.uploadResult answer with
    | some err => .failed err
    | none => .ok
  | remove => .ok

def request (route : GuardedRoute) (name : String) (authorization : Option String)
    (payload : Option ByteArray) : Request where
  method := .post
  path := ["_", route.segment, name]
  authorization := authorization
  payload := payload

theorem detect_request (route : GuardedRoute) (name : String) (authorization : Option String)
    (payload : Option ByteArray) :
    router.detect .post ⟨(route.request name authorization payload).path, []⟩ =
      some ([.inject, .auth, route.handler], ⟨[], [("name", name)]⟩) := by
  cases route with
  | upload => rfl
  | remove => rfl

end GuardedRoute

inductive Verdict
  | unauthorized
  | crashed
  | unreadable
  | badRequest
  | handled (payload : ByteArray)

namespace Server

variable {srv : Server} {req : Request} {now : Nat}

def bearer (srv : Server) (req : Request) (now : Nat) : Decoded :=
  match req.authorization with
  | none => .err
  | some header => srv.crypto.decode srv.secret.toUTF8 (trimBearer header.toList) now

def verdict (srv : Server) (req : Request) (now : Nat) : Verdict :=
  match srv.bearer req now, req.payload with
  | .err, _ => .unauthorized
  | .panic, _ => .crashed
  | .ok _, none => .unreadable
  | .ok claims, some payload =>
    if claims.hash = hexEncode (srv.crypto.digest payload) then .handled payload else .badRequest

theorem payload_of_verdict {payload : ByteArray} (h : srv.verdict req now = .handled payload) :
    req.payload = some payload := by
  unfold verdict at h
  split at h
  · cases h
  · cases h
  · cases h
  · rename_i claims bytes _ hp
    split at h
    · cases h
      exact hp
    · cases h

theorem verdict_eq_crashed : srv.verdict req now = .crashed ↔ srv.bearer req now = .panic := by
  unfold verdict
  split
  · simp [*]
  · simp [*]
  · simp [*]
  · split <;> simp [*]

theorem verdict_eq_unreadable : srv.verdict req now = .unreadable ↔
    (∃ claims, srv.bearer req now = .ok claims) ∧ req.payload = none := by
  unfold verdict
  split
  · simp [*]
  · simp [*]
  · simp [*]
  · split <;> simp [*]

theorem handle_auth (srv : Server) (ctx : Context) (x : Exchange) :
    Handler.auth.handle srv ctx x =
      match srv.verdict ctx.req ctx.now with
      | .unauthorized => ({ x with status := some .unauthorized }, .skipRest)
      | .crashed => ({ x with panicked := true }, .skipRest)
      | .unreadable => ({ x with panicked := true }, .skipRest)
      | .badRequest => ({ x with status := some .badRequest }, .next)
      | .handled _ => ({ x with claims := (srv.bearer ctx.req ctx.now).toOption }, .next) := by
  simp only [Handler.handle, AuthMiddleware.handle, AuthMiddleware.new, verdict, bearer]
  cases ctx.req.authorization with
  | none => rfl
  | some header =>
    simp only
    cases srv.crypto.decode srv.secret.toUTF8 (trimBearer header.toList) ctx.now with
    | err | panic => rfl
    | ok claims =>
      cases ctx.req.payload with
      | none => rfl
      | some payload =>
        by_cases hhash : claims.hash = hexEncode (srv.crypto.digest payload)
        · simp only [hhash, ne_eq, not_true_eq_false, ↓reduceIte, Decoded.toOption]
        · simp only [hhash, ne_eq, not_false_eq_true, ↓reduceIte]

theorem handle_guarded (srv : Server) (route : GuardedRoute) {ctx : Context} {x : Exchange}
    {name : String} {payload : ByteArray} (hparams : ctx.params = [("name", name)])
    (hpayload : ctx.req.payload = some payload) (hserverless : x.serverless = true) :
    route.handler.handle srv ctx x = ({ x with call := some (route.op name payload) }, .next) := by
  cases route with
  | upload =>
    simp [GuardedRoute.handler, GuardedRoute.op, Handler.handle, Context.apiUploadWorker,
      Context.withName, Exchange.obtain, hparams, hpayload, hserverless]
  | remove =>
    simp [GuardedRoute.handler, GuardedRoute.op, Handler.handle, Context.apiRemoveWorker,
      Context.withName, Exchange.obtain, hparams, hserverless]

def stopped (srv : Server) (route : GuardedRoute) (name : String) (req : Request) (now : Nat) :
    Verdict → Exchange
  | .unauthorized => { serverless := true, status := some .unauthorized }
  | .crashed | .unreadable => { serverless := true, panicked := true }
  | .badRequest => { serverless := true, status := some .badRequest }
  | .handled payload =>
    { serverless := true, claims := (srv.bearer req now).toOption, call := some (route.op name payload) }

theorem callNext_guarded (srv : Server) (route : GuardedRoute) {ctx : Context} {name : String}
    (hparams : ctx.params = [("name", name)]) :
    Router.callNext (Handler.handle srv ctx) Exchange.stamped [.inject, .auth, route.handler] {} =
      srv.stopped route name ctx.req ctx.now (srv.verdict ctx.req ctx.now) := by
  have hinject : Handler.inject.handle srv ctx {} = ({ serverless := true }, .next) := rfl
  have hauth := handle_auth srv ctx { serverless := true }
  rw [Router.callNext_of_next _ hinject rfl]
  cases hv : srv.verdict ctx.req ctx.now with
  | unauthorized | crashed | unreadable =>
    rw [hv] at hauth
    exact Router.callNext_of_skipRest _ hauth
  | badRequest =>
    rw [hv] at hauth
    exact Router.callNext_of_stamped _ hauth rfl
  | handled payload =>
    rw [hv] at hauth
    rw [Router.callNext_of_next _ hauth rfl]
    exact Router.callNext_of_next _ (handle_guarded srv route hparams (payload_of_verdict hv) rfl) rfl

theorem service_request (srv : Server) (route : GuardedRoute) (name : String)
    (authorization : Option String) (payload : Option ByteArray) (now : Nat) :
    srv.service (route.request name authorization payload) now =
      srv.stopped route name (route.request name authorization payload) now
        (srv.verdict (route.request name authorization payload) now) := by
  have hdetect : router.detect (route.request name authorization payload).method
      ⟨(route.request name authorization payload).path, []⟩ = _ :=
    route.detect_request name authorization payload
  unfold service
  rw [hdetect]
  exact callNext_guarded srv route rfl

end Server

namespace App

variable {srv : Server} {c : Config} {s s' : App} {a : AppAct} {i : Nat}

theorem Step.client (hs : Step 0 srv s s' a) {call : Call} (hc : call ∈ s'.runtime.calls) :
    (∃ b ∈ s.runtime.calls, b.client = call.client) ∨
      (∃ v, s.visits[call.client]? = some v ∧ v.exchange.call.isSome) ∨
      ∃ req now, a = .request req now ∧ (srv.service req now).call.isSome ∧
        call.client = s.visits.length := by
  have hissued : ∀ {j x}, Issued s s' j x →
      (∃ b ∈ s.runtime.calls, b.client = call.client) ∨ x.call.isSome ∧ call.client = j := by
    intro j x h
    obtain hr | ⟨op, hop, hr⟩ := h.runtime
    · exact .inl ⟨call, hr ▸ hc, rfl⟩
    · obtain ⟨b, hb, hclient, -⟩ | hb := Runtime.call_of_step hr hc
      · exact .inl ⟨b, hb, hclient⟩
      · cases hb
        exact .inr ⟨by rw [hop]; rfl, rfl⟩
  cases hs with
  | request visits issued =>
    obtain hb | ⟨hcall, hclient⟩ := hissued issued
    · exact .inl hb
    · exact .inr (.inr ⟨_, _, rfl, hcall, hclient⟩)
  | resume visit waits returned visits issued =>
    obtain hb | ⟨-, hclient⟩ := hissued issued
    · exact .inl hb
    · rw [hclient]
      exact .inr (.inl ⟨_, visit, by rw [waits]; rfl⟩)
  | runtime other visits step =>
    obtain ⟨b, hb, hclient, -⟩ | hb := Runtime.call_of_step step hc
    · exact .inl ⟨b, hb, hclient⟩
    · exact absurd hb (other _ _)

theorem client_lt {as : List AppAct} (h : (machine srv c).Run as s) :
    ∀ call ∈ s.runtime.calls, call.client < s.visits.length := by
  refine h.invariant (P := fun s => ∀ call ∈ s.runtime.calls, call.client < s.visits.length)
    (by simp [machine, start, Runtime.start]) fun {s a s'} ih hs call hc => ?_
  have hstep := step_sound hs
  have hmono : ∀ {i}, i < s.visits.length → i < s'.visits.length := fun hi => by
    obtain ⟨v, hv, -⟩ := hstep.continues _ _ (List.getElem?_eq_getElem hi)
    exact (List.getElem?_eq_some_iff.mp hv).1
  obtain ⟨b, hb, hclient⟩ | ⟨v, hv, -⟩ | ⟨req, now, rfl, -, hclient⟩ := hstep.client hc
  · exact hmono (hclient ▸ ih b hb)
  · exact hmono (List.getElem?_eq_some_iff.mp hv).1
  · cases hstep with
    | request visits =>
      rw [visits, List.length_append, hclient]
      exact Nat.lt_succ_self _

structure Silent (s : App) (i : Nat) : Prop where
  visit : ∃ v, s.visits[i]? = some v ∧ v.exchange.call = none
  calls : ∀ call ∈ s.runtime.calls, call.client ≠ i

theorem Silent.step (h : s.Silent i) (hs : Step 0 srv s s' a) : s'.Silent i := by
  obtain ⟨v, hv, hnone⟩ := h.visit
  have hlt := (List.getElem?_eq_some_iff.mp hv).1
  constructor
  · cases hs with
    | request visits => exact ⟨v, by rw [visits, List.getElem?_append_left hlt, hv], hnone⟩
    | @resume j w _ _ visit waits _ visits =>
      have hj : j ≠ i := by
        rintro rfl
        obtain rfl := Option.some.inj (visit.symm.trans hv)
        rw [waits] at hnone
        cases hnone
      exact ⟨v, by rw [visits, List.getElem?_set_ne hj, hv], hnone⟩
    | runtime _ visits => exact ⟨v, visits ▸ hv, hnone⟩
  · rintro call hc rfl
    obtain ⟨b, hb, hclient⟩ | ⟨w, hw, hsome⟩ | ⟨req, now, -, -, hclient⟩ := hs.client hc
    · exact h.calls b hb hclient
    · obtain rfl := Option.some.inj (hw.symm.trans hv)
      rw [hnone] at hsome
      cases hsome
    · exact absurd hclient (Nat.ne_of_lt hlt)

def Unchanged (srv : Server) (req : Request) (now : Nat) : Prop :=
  ∀ c pre post s s' t, (machine srv c).Run pre s → s.step srv (.request req now) = some s' →
    (machine srv c).Run (pre ++ .request req now :: post) t →
    s'.runtime = s.runtime ∧ ∀ call ∈ t.runtime.calls, call.client ≠ s.visits.length

theorem unchanged_of_call {req : Request} {now : Nat} (h : (srv.service req now).call = none) :
    Unchanged srv req now := by
  intro c pre post s s' t hpre hs ht
  have hruntime : s'.runtime = s.runtime := by
    cases step_sound hs with
    | request _ issued =>
      obtain hr | ⟨op, hop, -⟩ := issued.runtime
      · exact hr
      · rw [h] at hop
        cases hop
  refine ⟨hruntime, Silent.calls (?_ : t.Silent s.visits.length)⟩
  refine ht.after (P := fun t => t.Silent s.visits.length) (fun {u u'} hu hs' => ?_)
    fun _ hsilent hs' => hsilent.step (step_sound hs')
  obtain rfl := hpre.unique hu
  obtain rfl := Option.some.inj (hs.symm.trans hs')
  constructor
  · cases step_sound hs with
    | request visits => exact ⟨_, by rw [visits, List.getElem?_concat_length], h⟩
  · intro call hc
    exact Nat.ne_of_lt (client_lt hpre call (hruntime ▸ hc))

end App

def Exchange.Failed (x : Exchange) : Prop := x.stamped = true ∨ ∃ err, x.body = some (.errored err)

/-- The exchange ends as the verdict says.  A request that is handled waits for its call, and
any answer to it ends the exchange. -/
def Verdict.Meets (route : GuardedRoute) (name : String) (x : Exchange) : Verdict → Prop
  | .unauthorized | .crashed => x.status = some .unauthorized
  | .unreadable => x.Failed
  | .badRequest => x.status = some .badRequest
  | .handled payload =>
    x.stamped = false ∧ x.call = some (route.op name payload) ∧ ∀ answer,
      Handler.resume x (route.op name payload) answer =
        { x with call := none, body := some (route.body answer) }

namespace Server

variable {srv : Server} {route : GuardedRoute} {name : String} {req : Request} {now : Nat}
  {v : Verdict}

structure Answers (srv : Server) (route : GuardedRoute) (name : String) (req : Request) (now : Nat) :
    Prop where
  alive : (srv.service req now).panicked = false
  meets : (srv.verdict req now).Meets route name (srv.service req now)
  unchanged : (∀ payload, srv.verdict req now ≠ .handled payload) → App.Unchanged srv req now

theorem alive_stopped (hc : v ≠ .crashed) (h : v ≠ .unreadable) :
    (srv.stopped route name req now v).panicked = false := by
  cases v with
  | crashed => exact absurd rfl hc
  | unreadable => exact absurd rfl h
  | unauthorized | badRequest | handled => rfl

theorem call_stopped (h : ∀ payload, v ≠ .handled payload) :
    (srv.stopped route name req now v).call = none := by
  cases v with
  | handled payload => exact absurd rfl (h payload)
  | unauthorized | crashed | unreadable | badRequest => rfl

theorem resume_stopped (payload : ByteArray) (answer : Answer) :
    Handler.resume (srv.stopped route name req now (.handled payload)) (route.op name payload) answer =
      { srv.stopped route name req now (.handled payload) with
        call := none, body := some (route.body answer) } := by
  cases route with
  | upload =>
    simp only [Handler.resume, GuardedRoute.op, GuardedRoute.body, stopped]
    cases Runtime.uploadResult answer <;> rfl
  | remove => rfl

theorem meets_stopped (hc : v ≠ .crashed) (h : v ≠ .unreadable) :
    v.Meets route name (srv.stopped route name req now v) := by
  cases v with
  | unauthorized => rfl
  | crashed => exact absurd rfl hc
  | unreadable => exact absurd rfl h
  | badRequest => rfl
  | handled payload => exact ⟨rfl, rfl, resume_stopped payload⟩

/-- A request to a guarded route is answered, unless `decode` panics on its token, or its token
decodes and its body cannot be read. -/
theorem answers_iff (srv : Server) (route : GuardedRoute) (name : String)
    (authorization : Option String) (payload : Option ByteArray) (now : Nat) :
    srv.Answers route name (route.request name authorization payload) now ↔
      srv.bearer (route.request name authorization payload) now ≠ .panic ∧
        ¬ ((∃ claims, srv.bearer (route.request name authorization payload) now = .ok claims) ∧
          payload = none) := by
  have hservice := service_request srv route name authorization payload now
  have hcrashed : srv.verdict (route.request name authorization payload) now = .crashed ↔ _ :=
    verdict_eq_crashed
  have hunreadable : srv.verdict (route.request name authorization payload) now = .unreadable ↔
      _ ∧ payload = none := verdict_eq_unreadable
  rw [← hunreadable, ne_eq, ← hcrashed]
  constructor
  · intro h
    refine ⟨fun hv => ?_, fun hv => ?_⟩ <;>
    · have halive := h.alive
      rw [hservice, hv] at halive
      cases halive
  · rintro ⟨hc, hv⟩
    constructor
    · rw [hservice]
      exact alive_stopped hc hv
    · rw [hservice]
      exact meets_stopped hc hv
    · intro hrefused
      apply App.unchanged_of_call
      rw [hservice]
      exact call_stopped hrefused

theorem bearer_request (srv : Server) (route : GuardedRoute) (name header : String)
    (payload : Option ByteArray) (now : Nat) :
    srv.bearer (route.request name (some header) payload) now =
      srv.crypto.decode srv.secret.toUTF8 (trimBearer header.toList) now := rfl

theorem trimBearer_tokenX :
    trimBearer ("Bearer " ++ String.ofList App.tokenX).toList = App.tokenX := by
  obtain ⟨rest, htoken⟩ : ∃ rest, App.tokenX = 'e' :: rest := ⟨_, rfl⟩
  simp only [String.toList_append, String.toList_ofList, htoken]
  rfl

theorem decode_tokenX : App.cryptoX.decode "secret".toUTF8 App.tokenX 0 = .ok App.claimsX := by
  simp only [App.cryptoX, and_self, Nat.zero_le, ↓reduceIte]

def lockedX : Crypto :=
  { App.cryptoX with
    decode := fun _ token _ =>
      if (base64Url App.tokenHeader.data.toList).isPrefixOf token then .panic else .err }

theorem decode_lockedX : lockedX.decode "secret".toUTF8 App.tokenX 0 = .panic := by
  have hprefix : base64Url App.tokenHeader.data.toList <+: App.tokenX := by
    simp only [App.tokenX, Crypto.signedPart, List.append_assoc]
    exact List.prefix_append _ _
  simp only [lockedX, List.isPrefixOf_iff_prefix.mpr hprefix, ↓reduceIte]

theorem upload_unread :
    ¬ Answers ⟨"secret", App.cryptoX⟩ .upload "b"
      (GuardedRoute.upload.request "b" (some ("Bearer " ++ String.ofList App.tokenX)) none) 0 ∧
    ¬ Answers ⟨"secret", lockedX⟩ .upload "b" (GuardedRoute.upload.request "b"
      (some ("Bearer " ++ String.ofList App.tokenX)) (some "x".toUTF8)) 0 := by
  refine ⟨fun h => ((answers_iff ..).mp h).2 ⟨⟨App.claimsX, ?_⟩, rfl⟩, fun h => ((answers_iff ..).mp h).1 ?_⟩
  · rw [bearer_request, trimBearer_tokenX, decode_tokenX]
  · rw [bearer_request, trimBearer_tokenX, decode_lockedX]

end Server

end Serverlessd
