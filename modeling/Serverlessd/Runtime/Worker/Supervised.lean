import Serverlessd.Runtime.Worker.TaskLaws

namespace Serverlessd

def InitAnswers.Supervised (a : InitAnswers) : Prop :=
  ∀ i, a.terminated = some i → ∀ j < a.executions, j ≤ i

namespace Worker

variable {w w' : Worker} {o : WorkerOut} {a : WorkerAct} {task : WorkerTask} {as : List WorkerAct}

def InCode (w : Worker) : Prop :=
  match w.phase with
  | .calling _ | .polling _ _ => True
  | .draining => w.isolate.jobs ≠ []
  | _ => False

def atCheckpoint (w : Worker) : Bool :=
  match w.phase with
  | .checkpoint _ => true
  | _ => false

/-- The microtasks of a call have all run when it returns.  So the checkpoint before an event runs
no code, and neither does `.then()` on a promise that is pending. -/
def codeless (w : Worker) : WorkerAct → Bool
  | .newPromise | .fulfil _ _ | .reject _ | .callFetch | .job =>
    w.atCheckpoint || (w.phase = .draining && w.isolate.jobs = [])
  | .terminate => w.atCheckpoint
  | _ => false

def Supervised (w : Worker) : Prop := w.InCode → w.monitor = .watching ∨ w.terminating = true

def Unwatched (w : Worker) : Prop := w.monitor ≠ .watching ∧ w.terminating = false

/-- The termination is spent on the last execution of the initialisation, if on one of them, and if
on the microtasks of the handler, then the promise of the handler is not fulfilled yet.  After that
the handler is not called, and no future is completed. -/
structure Withheld (w : Worker) (a : WorkerAct) : Prop where
  init : ∀ answers i, a = .init answers → answers.terminated = some i → answers.executions ≤ i + 1
  returned : ∀ promise value, a = .retTerminated (.promise promise .ok) →
    w.isolate.promises[promise]? ≠ some (.fulfilled value)
  event : w.Unwatched → ∀ reply, w.phase = .checkpoint (.http reply) → w.fetch = true → a ≠ .resume
  completed : w.Unwatched → ∀ future, a ≠ .poll future true

theorem supervised_of_phase (h : ¬ w.InCode) : w.Supervised := fun hc => absurd hc h

theorem Supervised.congr (h : w.Supervised) (hp : w'.phase = w.phase) (hi : w'.isolate = w.isolate)
    (hm : w'.monitor = w.monitor) (ht : w'.terminating = w.terminating) : w'.Supervised := by
  simpa only [Supervised, InCode, hp, hi, hm, ht] using h

theorem Supervised.code (h : w.Supervised) (hc : w.InCode) (hm : w'.monitor = w.monitor)
    (ht : w'.terminating = w.terminating) : w'.Supervised := by
  intro _
  rw [hm, ht]
  exact h hc

theorem supervised_of_not_unwatched (h : ¬ w.Unwatched) : w.Supervised := by
  intro _
  by_cases hm : w.monitor = .watching
  · exact .inl hm
  · exact .inr (Bool.of_not_eq_false fun ht => h ⟨hm, ht⟩)

theorem inCode_of_inJs (js : w.inJs = true)
    (hd : ¬ (w.atCheckpoint || (w.phase = .draining && w.isolate.jobs = [])) = true) : w.InCode := by
  unfold inJs at js
  unfold InCode
  split at js
  · simp [atCheckpoint, *] at hd
  · simp [*]
  · simpa [atCheckpoint, *] using hd
  · simp [*]
  · cases js

theorem Supervised.returned (h : w.Supervised) {reply : Nat} {result : CallResult}
    (phase : w.phase = .calling reply) (hr : Returned w reply result w' o) : w'.Supervised := by
  have hcode : w.InCode := by simp [InCode, phase]
  cases hr with
  | value | noFunction => exact supervised_of_phase fun hc => hc
  | chained | notRegistered => exact h.code hcode rfl rfl

theorem supervised_of_retTerminated {reply : Nat} {result : CallResult} (hj : w.isolate.jobs = [])
    (hf : ∀ promise value, result = .promise promise .ok →
      w.isolate.promises[promise]? ≠ some (.fulfilled value))
    (hr : Returned w reply result w' o) : w'.Supervised := by
  refine supervised_of_phase ?_
  cases hr with
  | value | noFunction => exact fun hc => hc
  | notRegistered => exact fun hc => hc hj
  | @chained promise =>
    have hchain : (w.isolate.chain promise w.repliers.boxes.length).jobs = [] := by
      unfold Isolate.chain
      split
      · exact hj
      · rename_i value hp
        exact absurd hp (hf promise value rfl)
      · exact hj
    exact fun hc => hc hchain

theorem Supervised.step (h : w.Supervised) (hw : w.Withheld a) (hd : ¬ w.codeless a = true)
    (hs : Step w a w' o) : w'.Supervised := by
  cases hs with
  | newPromise js | fulfil js | reject js | callFetch js | job js =>
    exact h.code (inCode_of_inJs js hd) rfl rfl
  | push | pollPending => exact h.congr rfl rfl rfl rfl
  | monitorLeave => exact fun _ => .inr rfl
  | monitorSend left | monitorSendFailed left | monitorDone left =>
    exact fun hc => (h hc).imp_left fun hm => by simp [left] at hm
  | resume drained hr =>
    cases hr with
    | call phase fetch =>
      exact supervised_of_not_unwatched (w := { w.swept with phase := _ })
        fun hu => hw.event hu _ phase fetch rfl
    | @polled future closing => cases closing <;> exact supervised_of_phase (fun hc => hc)
    | halt | skip | drained => exact supervised_of_phase fun hc => hc
  | terminate flag hr =>
    cases hr with
    | call phase | halt phase | skip phase =>
      have hat : w.atCheckpoint = true := by
        simp only [atCheckpoint, show w.phase = _ from phase]
      simp [hat, codeless] at hd
    | @polled future closing => cases closing <;> exact supervised_of_phase (fun hc => hc)
    | drained => exact supervised_of_phase fun hc => hc
  | @pollReady future => exact supervised_of_not_unwatched fun hu => hw.completed hu future rfl
  | ret phase drained hr => exact h.returned phase hr
  | retTerminated phase flag hr =>
    exact supervised_of_retTerminated (w := { w with terminating := false }.discardJobs) rfl
      (fun p v he => hw.returned p v (he ▸ rfl)) hr
  | unmonitored | initLoop | initError | recv | retThrew | terminateCall | close | cancel
  | cancelClosing => exact supervised_of_phase fun hc => hc

def Asked (w : Worker) : Prop := w.terminating = true → w.monitor ≠ .watching

theorem Asked.congr (h : w.Asked) (hm : w'.monitor = w.monitor)
    (ht : w'.terminating = true → w.terminating = true) : w'.Asked := by
  intro hterm
  rw [hm]
  exact h (ht hterm)

theorem asked_of_false (h : w.terminating = false) : w.Asked := fun ht => by simp [h] at ht

theorem Asked.resumed (h : w.Asked) (hr : Resumed w w' o) : w'.Asked := by
  cases hr <;> exact h

theorem Asked.returned (h : w.Asked) {reply : Nat} {result : CallResult}
    (hr : Returned w reply result w' o) : w'.Asked := by
  cases hr <;> exact h

theorem Asked.step (h : w.Asked) (hs : Step w a w' o) : w'.Asked := by
  cases hs with
  | monitorLeave | monitorSend | monitorSendFailed | monitorDone => exact fun _ => by simp
  | initLoop | initError => exact h.congr rfl fun ht => (Bool.and_eq_true_iff.mp ht).1
  | resume drained hr => exact h.resumed hr
  | terminate flag hr => exact (asked_of_false rfl).resumed hr
  | ret phase drained hr => exact h.returned hr
  | retTerminated phase flag hr => exact (asked_of_false rfl).returned hr
  | terminateCall => exact asked_of_false rfl
  | _ => exact h

end Worker

end Serverlessd
