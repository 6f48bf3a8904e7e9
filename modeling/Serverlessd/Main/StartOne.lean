import Serverlessd.Runtime.Serverless.Admission
import Serverlessd.Runtime.Serverless.AppLaws

namespace Serverlessd

inductive StartOnePhase
  | starting
  | uploading (call : Nat)
  | creating (call : Nat)
  | serving (call podId podWorkerId : Nat)
  | returned
  deriving DecidableEq

/-- `start_one` is the first client of the serverless task, before those of the visits. -/
structure StartOne extends App where
  phase : StartOnePhase := .starting

inductive StartOneAct
  | main
  | app (a : AppAct)

namespace StartOne

def config (fs : FileSystem) (io : Io) : Config := { nThreads := 1, nWorkers := 1, fs, io }

def start (fs : FileSystem) (io : Io) : StartOne where
  runtime := .start (config fs io)

def call (s : StartOne) (op : Op) (phase : Nat → StartOnePhase) : Option StartOne :=
  (s.runtime.step (.issue 0 op)).map fun runtime =>
    { s with runtime, phase := phase s.runtime.calls.length }

def main (source : String) (s : StartOne) : Option StartOne :=
  match s.phase with
  | .starting => s.call (.uploadWorker "index" source.toUTF8) .uploading
  | .uploading call =>
    match s.runtime.returned call with
    | none => none
    | some answer =>
      match Runtime.uploadResult answer with
      | some _ => some { s with phase := .returned }
      | none => s.call (.createWorker "index") .creating
  | .creating call =>
    match s.runtime.returned call with
    | none => none
    | some (.created (some (podId, podWorkerId))) =>
      some { s with phase := .serving call podId podWorkerId }
    | some _ => some { s with phase := .returned }
  | .serving _ _ _ => if s.runtime.phase = .closed then some { s with phase := .returned } else none
  | .returned => none

def step (srv : Server) (source : String) (s : StartOne) : StartOneAct → Option StartOne
  | .main => s.main source
  | .app a => (s.toApp.stepFrom 1 srv a).map fun app => { s with toApp := app }

def machine (srv : Server) (source : String) (fs : FileSystem) (io : Io) :
    Machine StartOne StartOneAct :=
  ⟨start fs io, fun s a => if s.phase = .returned then none else s.step srv source a⟩

section Runs

variable {srv : Server} {source : String} {fs : FileSystem} {io : Io} {s s' : StartOne}
variable {a : StartOneAct} {i n : Nat} {v : Visit} {op : Op} {as : List StartOneAct}

theorem step_of_machine (h : (machine srv source fs io).step s a = some s') :
    s.step srv source a = some s' :=
  (Option.ite_none_left_eq_some.mp h).2

theorem call_cases {phase : Nat → StartOnePhase} (h : s.call op phase = some s') :
    s.runtime.step (.issue 0 op) = some s'.runtime ∧ s'.phase = phase s.runtime.calls.length ∧
      s'.visits = s.visits := by
  obtain ⟨runtime, hs, rfl⟩ := Option.map_eq_some_iff.mp h
  exact ⟨hs, rfl, rfl⟩

inductive Mained (source : String) (s : StartOne) : StartOne → Prop
  | upload {s' : StartOne} (phase : s.phase = .starting)
      (h : s.call (.uploadWorker "index" source.toUTF8) .uploading = some s') : Mained source s s'
  | create {s' : StartOne} {call : Nat} (phase : s.phase = .uploading call)
      (h : s.call (.createWorker "index") .creating = some s') : Mained source s s'
  | serve {call podId podWorkerId : Nat} (phase : s.phase = .creating call)
      (h : s.runtime.returned call = some (.created (some (podId, podWorkerId)))) :
      Mained source s { s with phase := .serving call podId podWorkerId }
  | leave : Mained source s { s with phase := .returned }

theorem main_sound (h : s.main source = some s') : Mained source s s' := by
  unfold main at h
  split at h
  · exact .upload ‹_› h
  · split at h
    · cases h
    · split at h
      · cases h
        exact .leave
      · exact .create ‹_› h
  · split at h
    · cases h
    · cases h
      exact .serve ‹_› ‹_›
    · cases h
      exact .leave
  · obtain ⟨-, h⟩ := Option.ite_none_right_eq_some.mp h
    cases h
    exact .leave
  · cases h

theorem runtime_of_step (h : s.step srv source a = some s') :
    s'.runtime = s.runtime ∨ ∃ b, s.runtime.step b = some s'.runtime := by
  cases a with
  | main =>
    cases main_sound h with
    | upload phase h | create phase h => exact .inr ⟨_, (call_cases h).1⟩
    | serve | leave => exact .inl rfl
  | app a =>
    obtain ⟨app, happ, rfl⟩ := Option.map_eq_some_iff.mp h
    exact App.runtime_of_step happ

theorem simulates : Machine.Simulates (machine srv source fs io) (Runtime.machine (config fs io))
    fun s r => s.runtime = r where
  init := rfl
  step := by
    rintro s a s' _ rfl hs
    obtain he | ⟨b, hb⟩ := runtime_of_step (step_of_machine hs)
    · exact ⟨[], _, rfl, he⟩
    · exact ⟨[b], _, by simpa [Runtime.machine] using hb, rfl⟩

def createCall (s : StartOne) : Option Nat :=
  match s.phase with
  | .creating call | .serving call _ _ => some call
  | _ => none

def Handed (s : StartOne) : Prop :=
  ∃ call x, (call, .created (some x)) ∈ s.runtime.replies ∧ call < s.runtime.calls.length ∧
    s.createCall ≠ some call

def refused (x : Exchange) : Exchange :=
  { x with call := none, body := some (.errored "failed to create worker") }

/-- How far the visit is: it waits for its worker, or was refused one, or some visit has got one. -/
def Told (srv : Server) (s : StartOne) (v : Visit) : Prop :=
  ∀ name, (srv.service v.req v.now).call = some (.createWorker name) →
    v.exchange = srv.service v.req v.now ∨ v.exchange = refused (srv.service v.req v.now) ∨ s.Handed

structure Tracked (srv : Server) (s : StartOne) : Prop where
  main : ∀ call, s.createCall = some call → call < s.runtime.calls.length
  visits : ∀ v ∈ s.visits, v.exchange.call ≠ none →
    v.call < s.runtime.calls.length ∧ s.createCall ≠ some v.call
  told : ∀ v ∈ s.visits, s.Told srv v
  serving : ∀ call podId podWorkerId, s.phase = .serving call podId podWorkerId →
    (call, .created (some (podId, podWorkerId))) ∈ s.runtime.replies

theorem service_toIndex {req : Request} {now : Nat} {rest : List String} (hm : req.method = .get)
    (hp : req.path = "worker" :: "index" :: rest) :
    srv.service req now = { serverless := true, call := some (.createWorker "index") } := by
  have hdetect : router.detect req.method ⟨req.path, []⟩ =
      some ([.inject, .worker], ⟨[], [("rest", "/".intercalate rest), ("name", "index")]⟩) := by
    rw [hm, hp]
    rfl
  simp only [Server.service, hdetect]
  rfl

theorem Handed.mono (h : s.Handed) (hlen : s.runtime.calls.length ≤ s'.runtime.calls.length)
    (hreplies : s.runtime.replies ⊆ s'.runtime.replies)
    (hcall : ∀ call, s'.createCall = some call → s.createCall = some call ∨
      call = s.runtime.calls.length) : s'.Handed := by
  obtain ⟨call, x, hm, hlt, hne⟩ := h
  refine ⟨call, x, hreplies hm, Nat.lt_of_lt_of_le hlt hlen, fun hc => ?_⟩
  obtain hc | rfl := hcall call hc
  · exact hne hc
  · exact Nat.lt_irrefl _ hlt

theorem Told.mono (h : s.Told srv v) (hh : s.Handed → s'.Handed) : s'.Told srv v :=
  fun name hc => (h name hc).imp_right (.imp_right hh)

theorem tracked_start (fs : FileSystem) (io : Io) : (start fs io).Tracked srv := by
  constructor <;> simp [start, createCall]

theorem Tracked.move (h : s.Tracked srv) (hlen : s.runtime.calls.length ≤ s'.runtime.calls.length)
    (hreplies : s.runtime.replies ⊆ s'.runtime.replies)
    (hcall : ∀ call, s'.createCall = some call → s.createCall = some call ∨
      call = s.runtime.calls.length ∧ call < s'.runtime.calls.length)
    (hserving : ∀ call podId podWorkerId, s'.phase = .serving call podId podWorkerId →
      s.phase = .serving call podId podWorkerId ∨
        (call, .created (some (podId, podWorkerId))) ∈ s'.runtime.replies)
    (hvisits : ∀ v ∈ s'.visits, v ∈ s.visits ∨ (v.exchange.call ≠ none →
      v.call < s'.runtime.calls.length ∧ s'.createCall ≠ some v.call) ∧ s'.Told srv v) :
    s'.Tracked srv where
  main := by
    intro call hc
    obtain hc | ⟨-, hlt⟩ := hcall call hc
    · exact Nat.lt_of_lt_of_le (h.main call hc) hlen
    · exact hlt
  visits := by
    intro v hv hne
    obtain hv | ⟨hnew, -⟩ := hvisits v hv
    · obtain ⟨hlt, hdiff⟩ := h.visits v hv hne
      refine ⟨Nat.lt_of_lt_of_le hlt hlen, fun hc => ?_⟩
      obtain hc | ⟨he, -⟩ := hcall _ hc
      · exact hdiff hc
      · omega
    · exact hnew hne
  told := by
    intro v hv
    obtain hv | ⟨-, htold⟩ := hvisits v hv
    · exact (h.told v hv).mono fun hh =>
        hh.mono hlen hreplies fun call hc => (hcall call hc).imp_right And.left
    · exact htold
  serving := by
    intro call podId podWorkerId hp
    obtain hp | hm := hserving call podId podWorkerId hp
    · exact hreplies (h.serving _ _ _ hp)
    · exact hm

theorem extends_of_step {r r' : Runtime} {b : RuntimeAct} (hs : Runtime.Step r b r') :
    r.calls.length ≤ r'.calls.length ∧ r.replies ⊆ r'.replies :=
  ⟨Runtime.calls_length_of_step hs, (Runtime.replies_of_step hs).subset⟩

theorem calls_length_of_issue {r r' : Runtime} {client : Nat}
    (hs : Runtime.Step r (.issue client op) r') : r'.calls.length = r.calls.length + 1 := by
  cases hs with
  | issue => simp

theorem replied_of_returned (hr : s.runtime.Heard) {call : Nat} {answer : Answer}
    (h : s.runtime.returned call = some answer) :
    (call, answer) ∈ s.runtime.replies ∨ answer = .removed := by
  obtain ⟨e, he, hm⟩ := List.exists_of_findSome?_eq_some h
  split at hm
  · simp only [Option.ite_none_right_eq_some, Option.some.injEq] at hm
    obtain ⟨rfl, rfl⟩ := hm
    exact (hr.replied _ _ he).imp_right And.left
  · cases hm

theorem Tracked.main_step (h : s.Tracked srv) (hr : s.runtime.Heard) (hs : Mained source s s') :
    s'.Tracked srv := by
  cases hs with
  | upload phase hc =>
    obtain ⟨hstep, hphase, hvisits⟩ := call_cases hc
    have hstep := Runtime.step_sound hstep
    obtain ⟨hlen, hreplies⟩ := extends_of_step hstep
    exact h.move hlen hreplies (by simp [createCall, hphase]) (by simp [hphase])
      fun v hv => .inl (hvisits ▸ hv)
  | create phase hc =>
    obtain ⟨hstep, hphase, hvisits⟩ := call_cases hc
    have hstep := Runtime.step_sound hstep
    obtain ⟨hlen, hreplies⟩ := extends_of_step hstep
    refine h.move hlen hreplies ?_ (by simp [hphase]) fun v hv => .inl (hvisits ▸ hv)
    simp [createCall, hphase, calls_length_of_issue hstep]
  | serve phase hret =>
    refine h.move (Nat.le_refl _) (List.Subset.refl _) ?_ ?_ fun v hv => .inl hv
    · simp [createCall, phase]
    · rintro call podId podWorkerId ⟨⟩
      exact .inr ((replied_of_returned hr hret).resolve_right (by simp))
  | leave =>
    exact h.move (Nat.le_refl _) (List.Subset.refl _) (by simp [createCall]) (by simp)
      fun v hv => .inl hv

theorem Tracked.of_issued (h : s.Tracked srv) (hphase : s'.phase = s.phase) {client : Nat}
    (hi : App.Issued s.toApp s'.toApp client v.exchange)
    (hvisits : ∀ w ∈ s'.visits, w ∈ s.visits ∨ w = { v with call := s.runtime.calls.length })
    (htold : (s.Handed → s'.Handed) → s'.Told srv v) : s'.Tracked srv := by
  have hcall : s'.createCall = s.createCall := by simp [createCall, hphase]
  have hext : s.runtime.calls.length ≤ s'.runtime.calls.length ∧
      s.runtime.replies ⊆ s'.runtime.replies := by
    obtain hr | ⟨op, -, hstep⟩ := hi.runtime
    · rw [hr]
      exact ⟨Nat.le_refl _, List.Subset.refl _⟩
    · exact extends_of_step hstep
  refine h.move hext.1 hext.2 (fun call hc => .inl (hcall ▸ hc))
    (fun _ _ _ hp => .inl (hphase ▸ hp)) fun w hw => ?_
  obtain hw | rfl := hvisits w hw
  · exact .inl hw
  · refine .inr ⟨fun hne => ?_, htold fun hh => hh.mono hext.1 hext.2 fun call hc => .inl (hcall ▸ hc)⟩
    obtain ⟨op, hop⟩ : ∃ op, v.exchange.call = some op := Option.ne_none_iff_exists'.mp hne
    simp only [App.Issued, hop] at hi
    refine ⟨by rw [calls_length_of_issue hi]; exact Nat.lt_succ_self _, fun hc => ?_⟩
    exact Nat.lt_irrefl _ (h.main _ (hcall ▸ hc))

theorem Tracked.resume (h : s.Tracked srv) (hr : s.runtime.Heard) (hv : v ∈ s.visits) {answer : Answer}
    (hcall : v.exchange.call = some op) (hret : s.runtime.returned v.call = some answer) :
    s.Told srv { v with exchange := Handler.resume v.exchange op answer } := by
  intro name hname
  obtain hx | hx | hx := h.told v hv name hname
  · obtain rfl : op = .createWorker name := by
      rw [hx, hname] at hcall
      exact (Option.some.inj hcall).symm
    cases answer with
    | created result =>
      cases result with
      | none => exact .inr (.inl (by simp [Handler.resume, refused, hx]))
      | some x =>
        obtain ⟨hlt, hne⟩ := h.visits v hv (by simp [hcall])
        have hm := (replied_of_returned hr hret).resolve_right (by simp)
        exact .inr (.inr ⟨v.call, x, hm, hlt, hne⟩)
    | uploaded | removed | http | dropped =>
      exact .inr (.inl (by simp [Handler.resume, refused, hx]))
  · simp [hx, refused] at hcall
  · exact .inr (.inr hx)

theorem Tracked.step (h : s.Tracked srv) (hr : s.runtime.Heard)
    (hs : s.step srv source a = some s') : s'.Tracked srv := by
  cases a with
  | main => exact h.main_step hr (main_sound hs)
  | app a =>
    obtain ⟨app, happ, rfl⟩ := Option.map_eq_some_iff.mp hs
    cases App.step_sound happ with
    | @request req now visits issued =>
      refine h.of_issued rfl (v := ⟨req, now, srv.service req now, 0⟩) issued (fun w hw => ?_)
        fun _ name _ => .inl rfl
      simpa [visits] using hw
    | @resume i v op answer hget hcall hret visits issued =>
      refine h.of_issued rfl (v := { v with exchange := Handler.resume v.exchange op answer }) issued
        (fun w hw => List.mem_or_eq_of_mem_set (visits ▸ hw)) fun hh => ?_
      exact (h.resume hr (List.mem_of_getElem? hget) hcall hret).mono hh
    | runtime other visits hstep =>
      obtain ⟨hlen, hreplies⟩ := extends_of_step hstep
      exact h.move hlen hreplies (fun _ hc => .inl hc) (fun _ _ _ hp => .inl hp)
        fun v hv => .inl (visits ▸ hv)

theorem tracked_run (h : (machine srv source fs io).Run as s) : s.Tracked srv := by
  refine h.induction (P := fun _ (s : StartOne) => s.Tracked srv) (tracked_start fs io) ?_
  intro as s a s' hrun ih hs
  obtain ⟨bs, hr⟩ := simulates.reachable hrun
  exact ih.step (Runtime.sequenced_run hr).heard (step_of_machine hs)

theorem created_unique {r : Runtime} {bs : List RuntimeAct}
    (h : (Runtime.machine (config fs io)).Run bs r) {call call' : Nat} {x x' : Nat × Nat}
    (hc : (call, .created (some x)) ∈ r.replies) (hc' : (call', .created (some x')) ∈ r.replies) :
    call = call' := by
  obtain ⟨-, hp, ha⟩ := Runtime.admitted_run h
  have hlen : r.pods.length = 1 := Runtime.pods_length_run h
  have hzero : ∀ {call : Nat} {x : Nat × Nat}, (call, .created (some x)) ∈ r.replies →
      ∃ task, r.taskOf 0 0 = some task ∧ task.call = call := by
    rintro call ⟨idx, worker⟩ hm
    obtain ⟨task, ht, hcall⟩ := hp.created call idx worker hm
    obtain ⟨p, w, get, hw, rfl⟩ := Runtime.taskOf_eq_some.mp ht
    have hidx := (List.getElem?_eq_some_iff.mp get).1
    have hworker := (List.getElem?_eq_some_iff.mp hw).1
    have hone : p.tasks.length ≤ 1 := (ha.pods p (List.mem_of_getElem? get)).started
    obtain rfl : idx = 0 := by omega
    obtain rfl : worker = 0 := by omega
    exact ⟨_, ht, hcall⟩
  obtain ⟨task, ht, rfl⟩ := hzero hc
  obtain ⟨task', ht', rfl⟩ := hzero hc'
  rw [Option.some.inj (ht.symm.trans ht')]

def ToIndex (req : Request) : Prop :=
  req.method = .get ∧ ∃ rest, req.path = "worker" :: "index" :: rest

def Waits (v : Visit) : Prop := v.exchange.call = some (.createWorker "index")

def Refused (v : Visit) : Prop := v.exchange.body = some (.errored "failed to create worker")

def Serves (s : StartOne) : Prop := ∀ v ∈ s.visits, ToIndex v.req → ¬ Refused v

theorem refused_or_waits (h : (machine srv source fs io).Run as s) {call podId podWorkerId : Nat}
    (hp : s.phase = .serving call podId podWorkerId) (hv : v ∈ s.visits) (hi : ToIndex v.req) :
    Waits v ∧ ¬ Refused v ∨ Refused v ∧ v.exchange.call = none := by
  have htracked := tracked_run h
  obtain ⟨bs, hr⟩ := simulates.reachable h
  obtain ⟨hm, rest, hpath⟩ := hi
  have hservice : srv.service v.req v.now = _ := service_toIndex hm hpath
  obtain hx | hx | ⟨call', x, hc, -, hne⟩ := htracked.told v hv "index" (by rw [hservice])
  · rw [hservice] at hx
    exact .inl ⟨by rw [Waits, hx], by simp [Refused, hx]⟩
  · exact .inr ⟨by rw [Refused, hx]; rfl, by rw [hx]; rfl⟩
  · have hsame := created_unique hr (htracked.serving _ _ _ hp) hc
    exact absurd (by simp [createCall, hp, hsame]) hne

/-- So no request is ever handed to a worker. -/
theorem serves_iff (h : (machine srv source fs io).Run as s) {call podId podWorkerId : Nat}
    (hp : s.phase = .serving call podId podWorkerId) :
    s.Serves ↔ ∀ v ∈ s.visits, ToIndex v.req → Waits v := by
  refine forall₃_congr fun v hv hi => ?_
  obtain ⟨hw, hn⟩ | ⟨hr, hnone⟩ := refused_or_waits h hp hv hi
  · exact ⟨fun _ => hw, fun _ => hn⟩
  · refine ⟨fun hn => absurd hr hn, fun hw => ?_⟩
    rw [Waits, hnone] at hw
    cases hw

end Runs

section Started

def noFiles : FileSystem := ⟨⟨[]⟩, fun _ => none, []⟩

def noServer : Server := ⟨"secret", ⟨id, fun _ => none, fun _ => none, fun _ _ _ => .err⟩⟩

def startedRun : List StartOneAct :=
  [.main] ++ ([.enqueue 0, .recv {}, .ret 0] : List RuntimeAct).map (fun a => .app (.runtime a)) ++
    [.main] ++ ([.enqueue 1, .recv {}, .send, .pod 0 .recv, .send, .pod 0 .recv, .ret 1] :
      List RuntimeAct).map (fun a => .app (.runtime a)) ++ [.main]

def getIndex : Request := ⟨.get, ["worker", "index"], none, none⟩

def requestRun : List StartOneAct :=
  [.app (.request getIndex 0)] ++ ([.enqueue 2, .recv {}, .send, .pod 0 .recv, .send, .ret 2] :
    List RuntimeAct).map (fun a => .app (.runtime a)) ++ [.app (.resume 0)]

set_option maxRecDepth 10000 in
theorem serves_iff_startedRun : ∃ s, (machine noServer "x" noFiles {}).Run startedRun s ∧
    (s.Serves ↔ ∀ v ∈ s.visits, ToIndex v.req → Waits v) := by
  have hrun : ((machine noServer "x" noFiles {}).exec (start noFiles {}) startedRun).any
      (fun s => s.phase = .serving 1 0 0) := by decide +kernel
  obtain ⟨s, h, hp⟩ := (Option.any_eq_true ..).mp hrun
  exact ⟨s, h, serves_iff h (of_decide_eq_true hp)⟩

set_option maxRecDepth 10000 in
theorem first_refused : ∃ s v, (machine noServer "x" noFiles {}).Run (startedRun ++ requestRun) s ∧
    s.phase = .serving 1 0 0 ∧ s.visits = [v] ∧ ToIndex v.req ∧ Refused v ∧ ¬ s.Serves := by
  have hrun : ((machine noServer "x" noFiles {}).exec (start noFiles {}) (startedRun ++ requestRun)).any
      (fun s => s.phase = .serving 1 0 0 &&
        (s.visits.map fun v => (v.req.method, v.req.path, v.exchange.body)) =
          [(.get, ["worker", "index"], some (.errored "failed to create worker"))]) := by
    decide +kernel
  obtain ⟨s, h, hs⟩ := (Option.any_eq_true ..).mp hrun
  simp only [Bool.and_eq_true, decide_eq_true_eq] at hs
  obtain ⟨hp, hvisits⟩ := hs
  obtain ⟨v, hv, heq⟩ := List.map_eq_singleton_iff.mp hvisits
  obtain ⟨hm, hpath, hbody⟩ : v.req.method = .get ∧ v.req.path = ["worker", "index"] ∧ Refused v := by
    simpa [Refused] using heq
  have hi : ToIndex v.req := ⟨hm, [], hpath⟩
  exact ⟨s, v, h, hp, hv, hi, hbody, fun hserves => hserves v (by simp [hv]) hi hbody⟩

end Started

end StartOne

end Serverlessd
