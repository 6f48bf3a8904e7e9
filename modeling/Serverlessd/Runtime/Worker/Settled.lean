import Serverlessd.Runtime.Worker.Continuations

namespace Serverlessd

namespace Worker

variable {w w' : Worker} {o : WorkerOut} {a : WorkerAct}

/-- With the microtask queue drained, the pending entries of the replier table are
those whose promise is pending; and the queue is drained whenever the worker waits
in `rx.recv()`. -/
structure AnswersSettled (w : Worker) : Prop where
  entries : w.isolate.jobs = [] → w.phase ≠ .closed → ∀ ptr link, w.links[ptr]? = some link →
    (some ptr ∈ w.repliers.table ∧ w.repliers.Live ptr ↔
      w.isolate.promises[link.promise]? = some .pending)
  drained : w.phase = .parked → w.isolate.jobs = []

def NoneLost (w : Worker) : Prop :=
  ∀ link ∈ w.links, w.isolate.promises[link.promise]? ≠ some .rejected ∧
    ∀ value, w.isolate.promises[link.promise]? = some (.fulfilled value) → link.linked = true

def KeepsPromise (w : Worker) : CallResult → Prop
  | .promise promise chained =>
    w.isolate.promises[promise]? ≠ some .rejected ∧
      (chained = .ok ∨ w.isolate.promises[promise]? = some .pending)
  | _ => True

/-- The steps that lose no reply: no promise that a client waits for is rejected, those
that are fulfilled were chained, and no checkpoint is terminated before its last job. -/
def LosesNone (w : Worker) : WorkerAct → Prop
  | .fulfil promise _ => ∀ link ∈ w.links, link.promise = promise → link.linked = true
  | .reject promise => ∀ link ∈ w.links, link.promise ≠ promise
  | .ret result => w.KeepsPromise result
  | .retTerminated result => w.isolate.jobs = [] ∧ w.KeepsPromise result
  | .terminate => (∃ reply, w.phase = .calling reply) ∨ w.isolate.jobs = []
  | _ => True

theorem Linked.live_iff_entry (h : w.Linked) (ptr : Nat) :
    some ptr ∈ w.repliers.table ∧ w.repliers.Live ptr ↔ w.repliers.Live ptr :=
  and_iff_right_of_imp (h.wf.live ptr)

theorem Linked.state_of_link (h : w.Linked) {link : Link} (hl : link ∈ w.links) :
    ∃ state, w.isolate.promises[link.promise]? = some state :=
  ⟨_, List.getElem?_eq_getElem (h.isolate.valid link hl)⟩

theorem Linked.entries_iff (h : w.Linked) (hj : w.isolate.jobs = []) (hp : w.phase ≠ .closed) :
    (∀ ptr link, w.links[ptr]? = some link →
      (some ptr ∈ w.repliers.table ∧ w.repliers.Live ptr ↔
        w.isolate.promises[link.promise]? = some .pending)) ↔ w.NoneLost := by
  have hentry : ∀ ptr link, w.links[ptr]? = some link →
      ((some ptr ∈ w.repliers.table ∧ w.repliers.Live ptr ↔
        w.isolate.promises[link.promise]? = some .pending) ↔
      w.isolate.promises[link.promise]? ≠ some .rejected ∧
        ∀ value, w.isolate.promises[link.promise]? = some (.fulfilled value) →
          link.linked = true) := by
    intro ptr link hl
    obtain ⟨state, hs⟩ := h.state_of_link (List.mem_of_getElem? hl)
    rw [h.live_iff_entry, h.live hp ptr link hl]
    cases state <;> simp [Answered, hj, hs]
  constructor
  · intro he link hl
    obtain ⟨ptr, hl⟩ := List.mem_iff_getElem?.mp hl
    exact (hentry ptr link hl).mp (he ptr link hl)
  · intro hn ptr link hl
    exact (hentry ptr link hl).mpr (hn link (List.mem_of_getElem? hl))

section Drained

def Drained (w : Worker) : Prop := w.phase = .parked ∨ w.phase = .starting → w.isolate.jobs = []

theorem drained_of_phase (hp : w.phase ≠ .parked) (hs : w.phase ≠ .starting) : w.Drained :=
  fun h => absurd h (not_or.mpr ⟨hp, hs⟩)

theorem drained_of_jobs (h : w.isolate.jobs = []) : w.Drained := fun _ => h

theorem drained_of_inJs (h : w.inJs = true) : w.Drained := by
  refine drained_of_phase ?_ ?_ <;> intro hp <;> simp [inJs, hp] at h

theorem Drained.congr (h : w.Drained) (hp : w'.phase = w.phase)
    (hi : w'.isolate = w.isolate) : w'.Drained := by
  simpa only [Drained, hp, hi] using h

theorem Drained.resumed (hj : w.isolate.jobs = []) (hr : Resumed w w' o) : w'.Drained := by
  cases hr <;> exact drained_of_jobs hj

theorem drained_of_returned {reply : Nat} {result : CallResult} (hj : w.isolate.jobs = [])
    (hr : Returned w reply result w' o) : w'.Drained := by
  cases hr with
  | value => exact drained_of_jobs hj
  | chained | notRegistered | noFunction => exact drained_of_phase (by simp) (by simp)

theorem Drained.step (h : w.Drained) (hs : Step w a w' o) : w'.Drained := by
  cases hs with
  | push | callFetch | monitorLeave | monitorSend | monitorSendFailed | monitorDone =>
    exact h.congr rfl rfl
  | unmonitored | initError | recv | retThrew | terminateCall | close | cancel | cancelClosing
  | pollReady =>
    exact drained_of_phase (by nofun) (by nofun)
  | initLoop phase => exact drained_of_jobs (h (.inr phase))
  | newPromise js | fulfil js | reject js | job js => exact drained_of_inJs js
  | resume drained hr => exact .resumed drained hr
  | ret phase drained hr => exact drained_of_returned drained hr
  | retTerminated phase flag hr => exact drained_of_returned rfl hr
  | terminate flag hr => exact .resumed rfl hr
  | pollPending phase live => exact h.congr rfl rfl

end Drained

section NoneLost

theorem NoneLost.congr (h : w.NoneLost) (hl : w'.links = w.links)
    (hi : w'.isolate.promises = w.isolate.promises) : w'.NoneLost := by
  simpa only [NoneLost, hl, hi] using h

theorem NoneLost.newPromise (h : w.NoneLost) (hw : w.Linked) :
    ({ w with isolate := w.isolate.newPromise } : Worker).NoneLost := by
  intro link hl
  have hv := hw.isolate.valid link hl
  simpa only [Isolate.newPromise, List.getElem?_append_left hv] using h link hl

theorem NoneLost.set (h : w.NoneLost) {promise : Nat} {state : PromiseState} {i : Isolate}
    (hi : i.promises = w.isolate.promises.set promise state)
    (hs : ∀ link ∈ w.links, link.promise = promise →
      state ≠ .rejected ∧ ∀ value, state = .fulfilled value → link.linked = true) :
    ({ w with isolate := i } : Worker).NoneLost := by
  intro link hl
  simp only [hi, List.getElem?_set]
  by_cases hq : promise = link.promise
  · have := hs link hl hq.symm
    split <;> simp_all
  · simpa [hq] using h link hl

theorem NoneLost.concat (h : w.NoneLost) {reply promise : Nat} (linked : Bool)
    (hr : w.isolate.promises[promise]? ≠ some .rejected)
    (hc : linked = true ∨ w.isolate.promises[promise]? = some .pending) :
    (w.registered reply promise linked).NoneLost := by
  intro link hl
  obtain hl | rfl : link ∈ w.links ∨ link = ⟨reply, promise, linked⟩ := by
    simpa [registered] using hl
  · exact h link hl
  · refine ⟨hr, fun value hf => ?_⟩
    obtain hc | hc := hc
    · exact hc
    · simp [registered, hc] at hf

theorem NoneLost.resumed (h : w.NoneLost) (hr : Resumed w w' o) : w'.NoneLost := by
  cases hr <;> exact h.congr rfl rfl

theorem NoneLost.returned (h : w.NoneLost) {reply : Nat} {result : CallResult}
    (ha : w.KeepsPromise result) (hr : Returned w reply result w' o) : w'.NoneLost := by
  cases hr with
  | value => exact h
  | chained => exact (h.concat true ha.1 (.inl rfl)).congr rfl (Isolate.chain_promises _ _ _)
  | notRegistered => exact h.concat _ ha.1 (.inr (ha.2.resolve_left (by nofun)))
  | noFunction => exact (h.concat false ha.1 (.inr (ha.2.resolve_left (by nofun)))).congr rfl rfl

theorem NoneLost.discardJobs (h : w.NoneLost) (hj : w.isolate.jobs = []) :
    w.discardJobs.NoneLost := by
  have hl : w.discardJobs.links = w.links :=
    List.ext_getElem? fun ptr => by simp [Worker.discardJobs, hj]
  exact h.congr hl rfl

theorem NoneLost.step (h : w.NoneLost) (hw : w.Linked) (ha : w.LosesNone a)
    (hs : Step w a w' o) : w'.NoneLost := by
  cases hs with
  | newPromise => exact h.newPromise hw
  | fulfil js pending => exact h.set rfl fun link hl hq => ⟨by nofun, fun _ _ => ha link hl hq⟩
  | reject js pending => exact h.set rfl fun link hl hq => absurd hq (ha link hl)
  | resume drained hr => exact h.resumed hr
  | ret phase drained hr => exact h.returned ha hr
  | retTerminated phase flag hr =>
    have hflag : ({ w with terminating := false } : Worker).NoneLost := h.congr rfl rfl
    exact (hflag.discardJobs ha.1).returned ha.2 hr
  | terminate flag hr =>
    obtain ⟨reply, hp⟩ | hj := ha
    · cases hr <;> simp_all [Worker.discardJobs]
    · have hflag : ({ w with terminating := false } : Worker).NoneLost := h.congr rfl rfl
      exact (hflag.discardJobs hj).resumed hr
  | push | unmonitored | initLoop | initError | recv | callFetch | job | retThrew | terminateCall
  | pollPending | pollReady | close | cancel | cancelClosing | monitorLeave | monitorSend
  | monitorSendFailed | monitorDone => exact h.congr rfl rfl

end NoneLost

theorem linked_run {task : WorkerTask} {as : List WorkerAct} (h : (machine task).Run as w) :
    w.Linked :=
  run_invariant (linked_init task) Linked.step h

theorem drained_run {task : WorkerTask} {as : List WorkerAct} (h : (machine task).Run as w) :
    w.Drained :=
  run_invariant (fun _ => rfl) Drained.step h

/-- In a run whose steps lose no reply, a settled promise is answered. -/
theorem settled_answered {task : WorkerTask} {as : List WorkerAct}
    (h : (machine task).Guarded LosesNone as) : (machine task).Always AnswersSettled as := by
  have hnone : (machine task).Always (fun w => w.Linked ∧ w.NoneLost) as := by
    refine h.always ⟨linked_init task, by nofun⟩ fun ha hi hs => ?_
    obtain ⟨o, hs⟩ := machine_sound hs
    exact ⟨hi.1.step hs, hi.2.step hi.1 ha hs⟩
  intro pre w hp hr
  obtain ⟨hl, hn⟩ := hnone pre w hp hr
  exact ⟨fun hj hph => (hl.entries_iff hj hph).mpr hn, fun hph => drained_run hr (.inl hph)⟩

instance : ∀ (w : Worker) (result : CallResult), Decidable (w.KeepsPromise result)
  | _, .promise _ _ => inferInstanceAs (Decidable (_ ∧ _))
  | _, .threw | _, .value => .isTrue trivial

instance : ∀ (w : Worker) (a : WorkerAct), Decidable (w.LosesNone a)
  | _, .fulfil _ _ => inferInstanceAs (Decidable (∀ link ∈ _, _))
  | _, .reject _ => inferInstanceAs (Decidable (∀ link ∈ _, _))
  | w, .ret result => inferInstanceAs (Decidable (w.KeepsPromise result))
  | w, .retTerminated result => inferInstanceAs (Decidable (_ ∧ w.KeepsPromise result))
  | w, .terminate =>
    match hp : w.phase with
    | .calling reply => .isTrue (.inl ⟨reply, hp⟩)
    | .starting | .parked | .checkpoint _ | .draining | .polling _ _ | .closing | .closed =>
      decidable_of_iff (w.isolate.jobs = []) (by simp [LosesNone, hp])
  | _, .push _ | _, .unmonitored | _, .init _ | _, .recv | _, .newPromise | _, .callFetch | _, .job
  | _, .resume | _, .poll _ _ | _, .close | _, .cancel | _, .monitorLeave | _, .monitorSend | _, .monitorDone => .isTrue trivial

theorem settled_answered_of_fulfilled :
    let as : List WorkerAct :=
      [.init {}, .push (.http 7), .recv, .resume, .newPromise, .ret (.promise 0 .ok), .resume,
        .push (.http 8), .recv, .fulfil 0 ⟨"a"⟩, .job, .resume, .ret .value]
    (∃ w, (machine ⟨"", 0⟩).Run as w ∧ w.phase = .parked) ∧
      (machine ⟨"", 0⟩).Always AnswersSettled as :=
  ⟨⟨_, rfl, rfl⟩, settled_answered (by decide)⟩

theorem rejected_not_answered :
    ¬ (machine ⟨"", 0⟩).Always AnswersSettled
      [.init {}, .push (.http 7), .recv, .resume, .newPromise, .reject 0, .ret (.promise 0 .ok),
        .resume] := by
  intro h
  have h := (h _ _ (List.prefix_refl _) rfl).entries rfl (by decide) 0 ⟨7, 0, true⟩ rfl
  revert h
  simp only [Repliers.Live]
  decide

end Worker

end Serverlessd
