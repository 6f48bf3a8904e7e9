import Mathlib
import Serverlessd.Runtime.Serverless.App
import Serverlessd.Runtime.Serverless.Order

open FileSystem

namespace Serverlessd

def Op.writes : Op → Bool
  | .uploadWorker _ _ | .removeWorker _ => true
  | .createWorker _ | .sendHttpToWorker _ _ => false

def Op.Changes (fs fs' : FileSystem) (io : Io) (file : File) : Op → Prop
  | .uploadWorker name code =>
    file = CodeStore.codeFile fs.cwd name ∧ fs'.files file = some (io.write.written code)
  | .removeWorker name => file = CodeStore.codeFile fs.cwd name ∧ fs'.files file = none
  | .createWorker _ | .sendHttpToWorker _ _ => False

theorem Op.Changes.writes {fs fs' : FileSystem} {io : Io} {file : File} {op : Op}
    (h : op.Changes fs fs' io file) : op.writes = true := by
  cases op with
  | uploadWorker | removeWorker => rfl
  | createWorker | sendHttpToWorker => exact h.elim

theorem CodeStore.run_changed {fs : FileSystem} {io : Io} {file : File} {op : Op}
    (hg : file ≠ gitignore fs.cwd) (h : (op.run fs io).1.files file ≠ fs.files file) :
    op.Changes fs (op.run fs io).1 io file := by
  cases op with
  | uploadWorker => exact upload_changed hg h
  | removeWorker => exact remove_changed hg h
  | createWorker => exact absurd (get_files hg) h
  | sendHttpToWorker => exact absurd rfl h

namespace Runtime

variable {s s' : Runtime} {a : RuntimeAct} {call : Nat} {status : Fifo.Status}

theorem call_of_setStatus {c : Call} (h : c ∈ (s.setStatus call status).calls) :
    ∃ b ∈ s.calls, b.client = c.client ∧ b.op = c.op := by
  obtain ⟨i, hi⟩ := List.mem_iff_getElem?.mp h
  simp only [setStatus, List.getElem?_modify, Option.map_eq_map, Option.map_eq_some_iff] at hi
  obtain ⟨b, hb, rfl⟩ := hi
  refine ⟨b, List.mem_of_getElem? hb, ?_⟩
  split <;> exact ⟨rfl, rfl⟩

theorem call_of_step (hs : Step s a s') {c : Call} (hc : c ∈ s'.calls) :
    (∃ b ∈ s.calls, b.client = c.client ∧ b.op = c.op) ∨ a = .issue c.client c.op := by
  have hsame : s'.calls = s.calls → ∃ b ∈ s.calls, b.client = c.client ∧ b.op = c.op :=
    fun h => ⟨c, h ▸ hc, rfl, rfl⟩
  cases hs with
  | issue =>
    obtain hc | rfl := List.mem_append.mp hc |>.imp_right List.mem_singleton.mp
    · exact .inl ⟨c, hc, rfl, rfl⟩
    · exact .inr rfl
  | enqueue | refuse | abandonSending | abandonWaiting | ret => exact .inl (call_of_setStatus hc)
  | recv phase head hh => cases hh <;> exact .inl (hsame rfl)
  | failed => exact .inl (hsame failed_calls)
  | pod => exact .inl (hsame emit_calls)
  | sent | noVacancy | allHalted | joined | shutdown | serverExit => exact .inl (hsame rfl)

theorem changed_of_step (hl : s.Labelled) (hs : Step s a s') {file : File}
    (hg : file ≠ CodeStore.gitignore s.fs.cwd) (h : s'.fs.files file ≠ s.fs.files file) :
    ∃ io call op, a = .recv io ∧ s.queue.head? = some (call, op.trigger call) ∧
      s.opOf call = some op ∧ op.Changes s.fs s'.fs io file := by
  by_cases ha : ∃ io, a = .recv io
  · obtain ⟨io, rfl⟩ := ha
    cases hs with
    | @recv _ _ call trigger queue phase head hh =>
      obtain ⟨op, hop, ht⟩ := hl.queue _ (head ▸ List.mem_cons_self)
      obtain ⟨-, hfs⟩ := log_of_handled ht hh
      rw [hfs] at h
      exact ⟨io, call, op, rfl, by rw [head, ← ht]; rfl, hop, hfs ▸ CodeStore.run_changed hg h⟩
  · exact absurd (congrArg (·.files file) (log_of_step hs fun io hio => ha ⟨io, hio⟩).2) h

end Runtime

namespace Server

variable {srv : Server} {req : Request} {now leeway : Nat} {op : Op} {x : Exchange}

def Accepts (srv : Server) (req : Request) (now : Nat) : Prop :=
  ∃ header claims body, req.authorization = some header ∧
    srv.crypto.decode srv.secret.toUTF8 (trimBearer header.toList) now = .ok claims ∧
    req.payload = some body ∧ claims.hash = hexEncode (srv.crypto.digest body)

theorem accepts_of_handle {ctx : Context} (hnext : (Handler.auth.handle srv ctx x).2 = .next)
    (hst : (Handler.auth.handle srv ctx x).1.stamped = false) : srv.Accepts ctx.req ctx.now := by
  simp only [Handler.handle, AuthMiddleware.handle, AuthMiddleware.new] at hnext hst
  split at hnext
  · cases hnext
  · rename_i header hheader
    simp only [hheader] at hst
    split at hnext
    · rename_i claims hdecode
      simp only [hdecode] at hst
      split at hnext
      · cases hnext
      · rename_i body hbody
        simp only [hbody] at hst
        split at hst
        · cases hst
        · exact ⟨header, claims, body, hheader, hdecode, hbody, not_not.mp ‹_›⟩
    · cases hnext
    · cases hnext

def callOf (ctx : Context) (name : String) : Handler → Option Op
  | .worker => some (.createWorker name)
  | .apiUploadWorker => ctx.req.payload.map (.uploadWorker name)
  | .apiRemoveWorker => some (.removeWorker name)
  | .inject | .auth | .wildcard => none

theorem call_of_handle {ctx : Context} {h : Handler} (hc : (h.handle srv ctx x).1.call = some op) :
    x.call = some op ∨ ∃ name, callOf ctx name h = some op := by
  have hobtain : ∀ {other : Op}, (x.obtain other).call = some op → x.call = some op ∨ other = op := by
    intro other ho
    unfold Exchange.obtain at ho
    split at ho
    · exact .inr (Option.some.inj ho)
    · exact .inl ho
  have hname : ∀ {f : String → Exchange}, (ctx.withName x f).call = some op →
      x.call = some op ∨ ∃ name, (f name).call = some op := by
    intro f hf
    unfold Context.withName at hf
    split at hf
    · exact .inr ⟨_, hf⟩
    · exact .inl hf
  cases h with
  | inject | wildcard => exact .inl hc
  | auth =>
    refine .inl ?_
    simp only [Handler.handle, AuthMiddleware.handle] at hc
    repeat' split at hc
    all_goals exact hc
  | worker =>
    refine (hname hc).elim .inl fun ⟨name, hc⟩ => (hobtain hc).imp_right fun he => ⟨name, ?_⟩
    exact congrArg some he
  | apiRemoveWorker =>
    refine (hname hc).elim .inl fun ⟨name, hc⟩ => (hobtain hc).imp_right fun he => ⟨name, ?_⟩
    exact congrArg some he
  | apiUploadWorker =>
    refine (hname hc).elim .inl fun ⟨name, hc⟩ => ?_
    split at hc
    · rename_i payload hp
      exact (hobtain hc).imp_right fun he => ⟨name, by rw [callOf, hp, Option.map_some, he]⟩
    · exact .inl hc

theorem chains_router : router.chains =
    [[.inject, .auth, .apiUploadWorker], [.inject, .auth, .apiRemoveWorker], [.inject, .worker],
      [.inject, .wildcard]] := rfl

example : (router.detect .get ⟨["_", "upload", "b"], []⟩).map Prod.fst = some [.inject, .wildcard] := by
  decide

example : (router.detect .post ⟨["_", "upload", "b"], []⟩).map Prod.fst =
    some [.inject, .auth, .apiUploadWorker] := by
  decide

theorem service_payload (h : (srv.service req now).call = some op) {name : String} {code : ByteArray}
    (hop : op = .uploadWorker name code) : req.payload = some code := by
  unfold service at h
  split at h
  · rename_i chain path hdetect
    refine Router.callNext_invariant
      (P := fun x : Exchange => ∀ op, x.call = some op → ∀ name code, op = .uploadWorker name code →
        req.payload = some code)
      (fun g _ x hx op hc name code hop => ?_) (fun _ hc => by cases hc) _ h name code hop
    obtain hc | ⟨name', hc⟩ := call_of_handle hc
    · exact hx op hc name code hop
    · subst hop
      cases g with
      | apiUploadWorker =>
        obtain ⟨payload, hp, he⟩ := Option.map_eq_some_iff.mp hc
        cases he
        exact hp
      | inject | auth | apiRemoveWorker | worker | wildcard => cases hc
  · cases h

theorem service_accepts (h : (srv.service req now).call = some op) (hw : op.writes = true) :
    srv.Accepts req now := by
  unfold service at h
  split at h
  · rename_i chain path hdetect
    set ctx : Context := ⟨req, path.params, now⟩
    have hkeeps : ∀ g : Handler, g ≠ .apiUploadWorker → g ≠ .apiRemoveWorker → ∀ x : Exchange,
        (∀ op, x.call = some op → op.writes = false) →
        ∀ op, (g.handle srv ctx x).1.call = some op → op.writes = false := by
      intro g hu hr x hx op hc
      obtain hc | ⟨name, hc⟩ := call_of_handle hc
      · exact hx op hc
      · cases g with
        | worker =>
          cases hc
          rfl
        | apiUploadWorker => exact absurd rfl hu
        | apiRemoveWorker => exact absurd rfl hr
        | inject | auth | wildcard => cases hc
    have hguard : ∀ g, chain = [.inject, .auth, g] → srv.Accepts req now := by
      rintro g rfl
      refine Router.callNext_guard [.inject] [g] Handler.auth
        (P := fun x : Exchange => ∀ op, x.call = some op → op.writes = false) (s := {}) (fun f hf => ?_)
        (fun x hnext hst => @accepts_of_handle srv x ctx hnext hst) (by simp) fun hn => ?_
      · exact hkeeps f (by rintro rfl; simp at hf) (by rintro rfl; simp at hf)
      · exact absurd hw (by rw [hn op h]; simp)
    have hfree : Handler.apiUploadWorker ∉ chain → Handler.apiRemoveWorker ∉ chain →
        srv.Accepts req now := by
      intro hu hr
      have hn := Router.callNext_invariant (P := fun x : Exchange => ∀ op, x.call = some op → op.writes = false)
        (fun g hg => hkeeps g (fun he => hu (he ▸ hg)) fun he => hr (he ▸ hg)) (by simp) op h
      exact absurd hw (by rw [hn]; simp)
    have hmem := Router.mem_chains_of_detect hdetect
    simp only [chains_router, List.mem_cons, List.not_mem_nil, or_false] at hmem
    obtain rfl | rfl | rfl | rfl := hmem
    · exact hguard _ rfl
    · exact hguard _ rfl
    · exact hfree (by decide) (by decide)
    · exact hfree (by decide) (by decide)
  · cases h

structure Permits (srv : Server) (req : Request) (now : Nat) (op : Op) : Prop where
  accepts : srv.Accepts req now
  payload : ∀ name code, op = .uploadWorker name code → req.payload = some code

theorem service_permits (h : (srv.service req now).call = some op) (hw : op.writes = true) :
    srv.Permits req now op :=
  ⟨service_accepts h hw, fun _ _ hop => service_payload h hop⟩

/-- The request carries a token that was signed with the secret and has not expired, and the
hash in it is that of the payload, which is what an upload stores. -/
def Authorized (srv : Server) (leeway : Nat) (req : Request) (now : Nat) (op : Op) : Prop :=
  ∃ header claims body, req.authorization = some header ∧
    srv.crypto.Signed srv.secret.toUTF8 (trimBearer header.toList) claims ∧
    now ≤ claims.exp + leeway ∧ req.payload = some body ∧
    claims.hash = hexEncode (srv.crypto.digest body) ∧
    ∀ name code, op = .uploadWorker name code → code = body

theorem Permits.authorized (h : srv.Permits req now op)
    (hverify : srv.crypto.Verifies srv.secret.toUTF8 leeway) : srv.Authorized leeway req now op := by
  obtain ⟨header, claims, body, hheader, hdecode, hbody, hhash⟩ := h.accepts
  obtain ⟨hsigned, hexp⟩ := hverify _ _ _ hdecode
  refine ⟨header, claims, body, hheader, hsigned, hexp, hbody, hhash, fun name code hop => ?_⟩
  exact Option.some.inj ((h.payload name code hop).symm.trans hbody)

end Server

namespace App

variable {srv : Server} {c : Config} {s s' : App} {a : AppAct} {first client i : Nat} {v : Visit}

def Continues (s s' : App) : Prop :=
  ∀ (i : Nat) (v : Visit), s.visits[i]? = some v →
    ∃ v' : Visit, s'.visits[i]? = some v' ∧ v'.req = v.req ∧ v'.now = v.now

structure Sourced (srv : Server) (s : App) : Prop where
  labelled : s.runtime.Labelled
  calls : ∀ c ∈ s.runtime.calls, c.op.writes = true →
    ∃ v, s.visits[c.client]? = some v ∧ srv.Permits v.req v.now c.op

def Issued (s s' : App) (client : Nat) (x : Exchange) : Prop :=
  match x.call with
  | none => s'.runtime = s.runtime
  | some op => Runtime.Step s.runtime (.issue client op) s'.runtime

inductive Step (first : Nat) (srv : Server) (s s' : App) : AppAct → Prop
  | request {req : Request} {now : Nat}
      (visits : s'.visits = s.visits ++ [⟨req, now, srv.service req now, s.runtime.calls.length⟩])
      (issued : Issued s s' (s.visits.length + first) (srv.service req now)) :
      Step first srv s s' (.request req now)
  | resume {i : Nat} {v : Visit} {op : Op} {answer : Answer} (visit : s.visits[i]? = some v)
      (waits : v.exchange.call = some op) (returned : s.runtime.returned v.call = some answer)
      (visits : s'.visits = s.visits.set i { v with
        exchange := Handler.resume v.exchange op answer, call := s.runtime.calls.length })
      (issued : Issued s s' (i + first) (Handler.resume v.exchange op answer)) :
      Step first srv s s' (.resume i)
  | runtime {b : RuntimeAct} (other : ∀ i op, b ≠ .issue i op) (visits : s'.visits = s.visits)
      (step : Runtime.Step s.runtime b s'.runtime) : Step first srv s s' (.runtime b)

theorem issued_of_issue (h : s.issue client i v = some s') :
    s'.visits = s.visits.set i { v with call := s.runtime.calls.length } ∧
      Issued s s' client v.exchange := by
  unfold issue at h
  unfold Issued
  cases hop : v.exchange.call with
  | none =>
    simp only [hop] at h
    cases h
    exact ⟨rfl, rfl⟩
  | some op =>
    simp only [hop] at h
    obtain ⟨runtime, hs, rfl⟩ := Option.map_eq_some_iff.mp h
    exact ⟨rfl, Runtime.step_sound hs⟩

theorem step_sound (hs : s.stepFrom first srv a = some s') : Step first srv s s' a := by
  cases a with
  | request req now =>
    obtain ⟨hvisits, hissued⟩ := issued_of_issue hs
    refine .request ?_ hissued
    rw [hvisits]
    simp
  | resume visit =>
    simp only [stepFrom] at hs
    split at hs
    · cases hs
    · rename_i v hv
      split at hs
      · rename_i op answer hop hanswer
        obtain ⟨hvisits, hissued⟩ := issued_of_issue hs
        exact .resume hv hop hanswer hvisits hissued
      · cases hs
  | runtime b =>
    cases b with
    | issue => cases hs
    | _ =>
      obtain ⟨runtime, hr, rfl⟩ := Option.map_eq_some_iff.mp hs
      exact .runtime (by simp) rfl (Runtime.step_sound hr)

theorem Issued.runtime {x : Exchange} (h : Issued s s' client x) : s'.runtime = s.runtime ∨
    ∃ op, x.call = some op ∧ Runtime.Step s.runtime (.issue client op) s'.runtime := by
  unfold Issued at h
  split at h
  · exact .inl h
  · exact .inr ⟨_, ‹_›, h⟩

theorem Step.continues (hs : Step first srv s s' a) : Continues s s' := by
  intro i v hv
  have hlt := (List.getElem?_eq_some_iff.mp hv).1
  cases hs with
  | request visits =>
    rw [visits, List.getElem?_append_left hlt]
    exact ⟨v, hv, rfl, rfl⟩
  | @resume j w _ _ hw _ _ visits =>
    rw [visits]
    by_cases hj : j = i
    · subst hj
      obtain rfl := Option.some.inj (hw.symm.trans hv)
      exact ⟨_, List.getElem?_set_self hlt, rfl, rfl⟩
    · exact ⟨v, by rw [List.getElem?_set_ne hj, hv], rfl, rfl⟩
  | runtime _ visits => exact ⟨v, visits ▸ hv, rfl, rfl⟩

theorem Step.runtime_step (hs : Step first srv s s' a) :
    s'.runtime = s.runtime ∨ ∃ b, Runtime.Step s.runtime b s'.runtime ∧
      ((∃ i op, b = .issue i op) ∨ a = .runtime b) := by
  have hissue : ∀ {i x}, Issued s s' i x → s'.runtime = s.runtime ∨
      ∃ b, Runtime.Step s.runtime b s'.runtime ∧ ((∃ i op, b = .issue i op) ∨ a = .runtime b) :=
    fun h => h.runtime.imp_right fun ⟨op, _, hr⟩ => ⟨_, hr, .inl ⟨_, op, rfl⟩⟩
  cases hs with
  | request _ issued => exact hissue issued
  | resume _ _ _ _ issued => exact hissue issued
  | runtime _ _ step => exact .inr ⟨_, step, .inr rfl⟩

theorem runtime_of_issue {t : App} (ht : t.runtime = s.runtime) (h : t.issue client i v = some s') :
    s'.runtime = s.runtime ∨ ∃ b, s.runtime.step b = some s'.runtime := by
  simp only [issue] at h
  split at h
  · cases h
    exact .inl ht
  · obtain ⟨runtime, hs, rfl⟩ := Option.map_eq_some_iff.mp h
    exact .inr ⟨_, ht ▸ hs⟩

theorem runtime_of_step (h : s.stepFrom first srv a = some s') :
    s'.runtime = s.runtime ∨ ∃ b, s.runtime.step b = some s'.runtime := by
  cases a with
  | request req now => exact runtime_of_issue (by rfl) h
  | resume visit =>
    simp only [stepFrom] at h
    split at h
    · cases h
    · split at h
      · exact runtime_of_issue rfl h
      · cases h
  | runtime b =>
    cases b with
    | issue => cases h
    | _ =>
      obtain ⟨runtime, hr, rfl⟩ := Option.map_eq_some_iff.mp h
      exact .inr ⟨_, hr⟩

theorem writes_resume {x : Exchange} {op op' : Op} {answer : Answer}
    (h : (Handler.resume x op answer).call = some op') : op'.writes = false := by
  unfold Handler.resume at h
  split at h
  · cases h
    rfl
  all_goals first | cases h | (split at h <;> cases h)

theorem sourced_start (c : Config) : (start c).Sourced srv :=
  ⟨Runtime.labelled_start c, by simp [start, Runtime.start]⟩

theorem Sourced.move (h : s.Sourced srv) (hv : Continues s s') {b : RuntimeAct}
    (hs : Runtime.Step s.runtime b s'.runtime)
    (hb : ∀ i op, b = .issue i op → op.writes = true →
      ∃ v, s'.visits[i]? = some v ∧ srv.Permits v.req v.now op) : s'.Sourced srv where
  labelled := h.labelled.step hs
  calls := by
    intro c hc hw
    obtain ⟨c', hc', hclient, hop⟩ | rfl := Runtime.call_of_step hs hc
    · obtain ⟨v, hget, hp⟩ := h.calls c' hc' (hop ▸ hw)
      obtain ⟨v', hget', hreq, hnow⟩ := hv _ _ hget
      refine ⟨v', hclient ▸ hget', ?_⟩
      rw [hreq, hnow, ← hop]
      exact hp
    · exact hb _ _ rfl hw

theorem Sourced.issued (h : s.Sourced srv) (hv : Continues s s') {x : Exchange}
    (hi : Issued s s' i x) (hperm : ∀ op, x.call = some op → op.writes = true →
      ∃ v, s'.visits[i]? = some v ∧ srv.Permits v.req v.now op) : s'.Sourced srv := by
  obtain hr | ⟨op, hop, hs⟩ := hi.runtime
  · refine ⟨hr ▸ h.labelled, fun c hc hw => ?_⟩
    obtain ⟨w, hget, hp⟩ := h.calls c (hr ▸ hc) hw
    obtain ⟨w', hget', hreq, hnow⟩ := hv _ _ hget
    exact ⟨w', hget', by rwa [hreq, hnow]⟩
  · refine h.move hv hs fun j op' hj hw => ?_
    cases hj
    exact hperm op hop hw

theorem Sourced.step (h : s.Sourced srv) (hs : Step 0 srv s s' a) : s'.Sourced srv := by
  have hcont := hs.continues
  cases hs with
  | @request req now visits issued =>
    refine h.issued hcont issued fun op hop hw => ?_
    refine ⟨⟨req, now, srv.service req now, s.runtime.calls.length⟩, ?_, Server.service_permits hop hw⟩
    rw [visits, Nat.add_zero, List.getElem?_concat_length]
  | resume _ _ _ _ issued =>
    refine h.issued hcont issued fun op hop hw => ?_
    exact absurd hw (by rw [writes_resume hop]; simp)
  | runtime other _ step => exact h.move hcont step fun i op hi => absurd hi (other i op)

theorem sourced_run {as : List AppAct} (h : (machine srv c).Run as s) : s.Sourced srv :=
  h.invariant (sourced_start c) fun hi hs => hi.step (step_sound hs)

/-- In every run, a file of the code store changes only when the operation of a request is
processed whose token was signed with the secret, has not expired, and names the hash of the
payload; and an upload writes that payload, or the first bytes of it if its write fails. -/
theorem store_authorized {leeway : Nat}
    (hverify : srv.crypto.Verifies srv.secret.toUTF8 leeway) {as : List AppAct}
    (h : (machine srv c).Run as s) (hs : s.step srv a = some s') {file : File}
    (hg : file ≠ CodeStore.gitignore s.runtime.fs.cwd)
    (hchanged : s'.runtime.fs.files file ≠ s.runtime.fs.files file) :
    ∃ io call visit op v, a = .runtime (.recv io) ∧
      s.runtime.queue.head? = some (call, op.trigger call) ∧
      (s.runtime.calls[call]?).map (fun c => (c.client, c.op)) = some (visit, op) ∧
      s.visits[visit]? = some v ∧ srv.Authorized leeway v.req v.now op ∧
      op.Changes s.runtime.fs s'.runtime.fs io file := by
  have hsource := sourced_run h
  obtain hr | ⟨b, hstep, hb⟩ := (step_sound hs).runtime_step
  · exact absurd (by rw [hr]) hchanged
  · obtain ⟨io, call, op, rfl, hhead, hop, hch⟩ :=
      Runtime.changed_of_step hsource.labelled hstep hg hchanged
    obtain ⟨i, op, hb⟩ | rfl := hb
    · cases hb
    · obtain ⟨c, hc, rfl⟩ := Option.map_eq_some_iff.mp hop
      obtain ⟨v, hv, hp⟩ := hsource.calls c (List.mem_of_getElem? hc) hch.writes
      exact ⟨io, call, c.client, c.op, v, rfl, hhead, by rw [hc]; rfl, hv, hp.authorized hverify, hch⟩

section Upload

def tokenHeader : ByteArray := "\x7b\"typ\":\"JWT\",\"alg\":\"HS256\"\x7d".toUTF8

def digestX : ByteArray :=
  ⟨#[45, 113, 22, 66, 183, 38, 176, 68, 1, 98, 124, 169, 251, 172, 50, 245, 200, 83, 15, 177, 144,
    60, 196, 219, 2, 37, 135, 23, 146, 26, 72, 129]⟩

def claimsX : Claims := ⟨"b", "webhook", hexEncode digestX, 0, 30, "1"⟩

def payloadX : ByteArray :=
  ("\x7b\"sub\":\"b\",\"for\":\"webhook\",\"hash\":\"" ++ hexEncode digestX ++
    "\",\"iat\":0,\"exp\":30,\"jti\":\"1\"\x7d").toUTF8

def padded (x : UInt8) : List UInt8 :=
  ("secret".toUTF8.data.toList ++ List.replicate 58 0).map (· ^^^ x)

def innerX : ByteArray :=
  ⟨#[46, 40, 221, 159, 171, 193, 208, 159, 29, 134, 87, 123, 87, 8, 161, 42, 77, 126, 11, 121, 147,
    77, 25, 114, 200, 0, 124, 193, 82, 159, 56, 32]⟩

def signatureX : ByteArray :=
  ⟨#[12, 8, 255, 145, 83, 128, 237, 90, 199, 33, 58, 226, 30, 33, 182, 56, 49, 148, 156, 123, 141,
    221, 173, 64, 135, 248, 145, 97, 252, 127, 191, 164]⟩

def tokenX : List Char :=
  Crypto.signedPart tokenHeader payloadX ++ '.' :: base64Url signatureX.data.toList

/-- SHA-256, JSON and `decode`, where one upload needs them. -/
def cryptoX : Crypto where
  digest bytes :=
    if bytes = "x".toUTF8 then digestX
    else if bytes.data.toList = padded 0x36 ++
      (String.ofList (Crypto.signedPart tokenHeader payloadX)).toUTF8.data.toList then innerX
    else if bytes.data.toList = padded 0x5c ++ innerX.data.toList then signatureX
    else .empty
  algorithm header := if header = tokenHeader then some "HS256" else none
  claims payload := if payload = payloadX then some claimsX else none
  decode key token now :=
    if key = "secret".toUTF8 ∧ token = tokenX ∧ now ≤ 30 + 60 then .ok claimsX else .err

def uploadX : Request where
  method := .post
  path := ["_", "upload", "b"]
  authorization := some ("Bearer " ++ String.ofList tokenX)
  payload := some "x".toUTF8

def emptyStore : Config where
  nThreads := 1
  nWorkers := 1
  fs := ⟨⟨[]⟩, fun _ => none, []⟩

set_option maxRecDepth 10000 in
theorem tokenX_eq : tokenX = Crypto.signedPart tokenHeader payloadX ++ '.' :: base64Url
    (hmac cryptoX.digest "secret".toUTF8
      (String.ofList (Crypto.signedPart tokenHeader payloadX)).toUTF8).data.toList := by
  decide +kernel

theorem verifiesX : cryptoX.Verifies "secret".toUTF8 60 := by
  intro token now claims h
  simp only [cryptoX] at h
  split at h
  · obtain ⟨-, rfl, hnow⟩ := ‹_ ∧ _›
    cases h
    exact ⟨⟨tokenHeader, payloadX, by simp [cryptoX], by simp [cryptoX], tokenX_eq⟩, hnow⟩
  · cases h

theorem queued_uploadX :
    ∃ s s' s'', (machine ⟨"secret", cryptoX⟩ emptyStore).Run [.request uploadX 0, .runtime (.enqueue 0)] s ∧
      s.step ⟨"secret", cryptoX⟩ (.runtime (.recv {})) = some s' ∧
      s.step ⟨"secret", cryptoX⟩ (.runtime (.recv { write := .failedAfter 0 })) = some s'' ∧
      s.visits[0]?.map (·.req.payload) = some (some "x".toUTF8) ∧ s.runtime.fs.cwd = ⟨[]⟩ ∧
      s.runtime.fs.files (CodeStore.codeFile ⟨[]⟩ "b") = none ∧
      s'.runtime.fs.files (CodeStore.codeFile ⟨[]⟩ "b") = some "x".toUTF8 ∧
      s''.runtime.fs.files (CodeStore.codeFile ⟨[]⟩ "b") = some .empty := by
  have hrun : ((machine ⟨"secret", cryptoX⟩ emptyStore).exec (start emptyStore)
      [.request uploadX 0, .runtime (.enqueue 0)]).any (fun s =>
        s.visits[0]?.map (·.req.payload) = some (some "x".toUTF8) && s.runtime.fs.cwd = ⟨[]⟩ &&
        s.runtime.fs.files (CodeStore.codeFile ⟨[]⟩ "b") = none &&
        ((s.step ⟨"secret", cryptoX⟩ (.runtime (.recv {}))).any fun s' =>
          s'.runtime.fs.files (CodeStore.codeFile ⟨[]⟩ "b") = some "x".toUTF8) &&
        (s.step ⟨"secret", cryptoX⟩ (.runtime (.recv { write := .failedAfter 0 }))).any fun s'' =>
          s''.runtime.fs.files (CodeStore.codeFile ⟨[]⟩ "b") = some .empty) := by decide +kernel
  obtain ⟨s, h, hs⟩ := (Option.any_eq_true ..).mp hrun
  simp only [Bool.and_eq_true, decide_eq_true_eq] at hs
  obtain ⟨⟨⟨⟨hvisit, hcwd⟩, hold⟩, hok⟩, htorn⟩ := hs
  obtain ⟨s', hs', hnew⟩ := (Option.any_eq_true ..).mp hok
  obtain ⟨s'', hs'', hleft⟩ := (Option.any_eq_true ..).mp htorn
  exact ⟨s, s', s'', h, hs', hs'', hvisit, hcwd, hold, of_decide_eq_true hnew, of_decide_eq_true hleft⟩

theorem store_authorized_uploadX :
    ∃ s s', (machine ⟨"secret", cryptoX⟩ emptyStore).Run [.request uploadX 0, .runtime (.enqueue 0)] s ∧
      s.step ⟨"secret", cryptoX⟩ (.runtime (.recv {})) = some s' ∧
      ∃ io call visit op v, .runtime (.recv {}) = AppAct.runtime (.recv io) ∧
        s.runtime.queue.head? = some (call, op.trigger call) ∧
        (s.runtime.calls[call]?).map (fun c => (c.client, c.op)) = some (visit, op) ∧
        s.visits[visit]? = some v ∧
        Server.Authorized ⟨"secret", cryptoX⟩ 60 v.req v.now op ∧
        op.Changes s.runtime.fs s'.runtime.fs io (CodeStore.codeFile s.runtime.fs.cwd "b") := by
  obtain ⟨s, s', -, h, hs, -, -, hcwd, hold, hnew, -⟩ := queued_uploadX
  refine ⟨s, s', h, hs, store_authorized verifiesX h hs ?_ fun he => ?_⟩
  · rw [hcwd]
    decide
  · rw [hcwd, hold, hnew] at he
    cases he

theorem store_torn_uploadX :
    ∃ s s' v body bytes,
      (machine ⟨"secret", cryptoX⟩ emptyStore).Run [.request uploadX 0, .runtime (.enqueue 0)] s ∧
      s.step ⟨"secret", cryptoX⟩ (.runtime (.recv { write := .failedAfter 0 })) = some s' ∧
      s.visits[0]? = some v ∧ v.req.payload = some body ∧
      s.runtime.fs.files (CodeStore.codeFile s.runtime.fs.cwd "b") = none ∧
      s'.runtime.fs.files (CodeStore.codeFile s.runtime.fs.cwd "b") = some bytes ∧ bytes ≠ body := by
  obtain ⟨s, -, s', h, -, hs, hvisit, hcwd, hold, -, hleft⟩ := queued_uploadX
  obtain ⟨v, hv, hpayload⟩ := Option.map_eq_some_iff.mp hvisit
  rw [← hcwd] at hold hleft
  exact ⟨s, s', v, _, _, h, hs, hv, hpayload, hold, hleft, by decide⟩

end Upload

end App

end Serverlessd
