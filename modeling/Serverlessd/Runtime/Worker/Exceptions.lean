import Serverlessd.Runtime.Worker.TaskLaws

namespace Serverlessd

def WorkerAct.quiet : WorkerAct → Bool
  | .push (.halt _) | .monitorLeave => false
  | _ => true

namespace Worker

variable {w w' : Worker} {a : WorkerAct} {o : WorkerOut} {task : WorkerTask} {as : List WorkerAct}

def Serving (w : Worker) : Prop := w.phase ≠ .starting ∧ w.rxOpen = true

/-- The event loop goes on, and a handler that throws fails the reply of its own event only. -/
structure Spared (w w' : Worker) (a : WorkerAct) (o : WorkerOut) : Prop where
  serving : w'.Serving
  result : w'.result ≠ some .timeout
  replies : ∀ reply, w.phase = .calling reply → a = .ret .threw → o.replies = dropped [reply]
  repliers : a = .ret .threw → w'.repliers = w.repliers

def Survives (w : Worker) (a : WorkerAct) : Prop :=
  w.Serving → ∀ w' o, w.step a = some (w', o) → w.Spared w' a o

def Returning (w : Worker) : WorkerAct → Prop
  | .ret .threw | .ret (.promise _ .noFunction) => False
  | .cancel => ¬ w.Serving
  | _ => True

structure Unhalted (w : Worker) : Prop where
  watching : w.monitor = .watching
  terminating : w.terminating = false
  tokens : ∀ token, w.holdsToken token = false
  result : w.rxOpen = true → w.result = none

theorem result_of_resumed (h : Resumed w w' o) (hr : w'.rxOpen = true) : w'.result = w.result := by
  cases h with
  | halt => cases hr
  | _ => rfl

theorem result_of_returned {reply : Nat} {result : CallResult} (h : Returned w reply result w' o)
    (hr : w'.rxOpen = true) : w'.result = w.result := by
  cases h with
  | noFunction => cases hr
  | value | chained | notRegistered => rfl

theorem result_of_step (h : Step w a w' o) (hr : w'.rxOpen = true) : w'.result = w.result := by
  cases h with
  | initError | retThrew | terminateCall => cases hr
  | resume drained h => exact result_of_resumed h hr
  | terminate flag h => exact (result_of_resumed h hr).trans rfl
  | ret phase drained h => exact result_of_returned h hr
  | retTerminated phase flag h => exact (result_of_returned h hr).trans rfl
  | _ => rfl

theorem unhalted_init (task : WorkerTask) : (machine task).init.Unhalted :=
  ⟨rfl, rfl, fun _ => rfl, fun _ => rfl⟩

theorem monitor_of_resumed (h : Resumed w w' o) :
    w'.monitor = w.monitor ∧ w'.terminating = w.terminating := by
  cases h <;> exact ⟨rfl, rfl⟩

theorem monitor_of_returned {reply : Nat} {result : CallResult} (h : Returned w reply result w' o) :
    w'.monitor = w.monitor ∧ w'.terminating = w.terminating := by
  cases h <;> exact ⟨rfl, rfl⟩

theorem Unhalted.step (h : w.Unhalted) (hq : a.quiet = true) (hs : Step w a w' o) :
    w'.Unhalted := by
  have hkept : w'.monitor = w.monitor ∧ w'.terminating = w.terminating := by
    cases hs with
    | resume drained hr => exact monitor_of_resumed hr
    | ret phase drained hr => exact monitor_of_returned hr
    | terminate flag | terminateCall flag | retTerminated phase flag => simp [h.terminating] at flag
    | initLoop | initError => exact ⟨rfl, by simp [gone, h.terminating]⟩
    | monitorLeave => cases hq
    | monitorSend left | monitorSendFailed left | monitorDone left => simp [h.watching] at left
    | _ => exact ⟨rfl, rfl⟩
  refine ⟨hkept.1.trans h.watching, hkept.2.trans h.terminating, fun token => ?_, fun hr => ?_⟩
  · refine Bool.eq_false_iff.mpr fun ht => ?_
    obtain hold | rfl | ⟨rfl, -⟩ := holdsToken_before hs ht
    · simp [h.tokens] at hold
    · cases hq
    · cases hs with
      | monitorSend left | monitorSendFailed left => simp [h.watching] at left
  · exact (result_of_step hs hr).trans (h.result (rxOpen_of_step hs hr))

theorem unhalted_run (h : (machine task).Run as w) (hq : ∀ a ∈ as, a.quiet = true) : w.Unhalted := by
  refine h.induction (P := fun as w => (∀ a ∈ as, a.quiet = true) → w.Unhalted)
    (fun _ => unhalted_init task) ?_ hq
  intro as w a w' _ ih hs hq
  obtain ⟨o, hs⟩ := machine_sound hs
  exact (ih fun b hb => hq b (by simp [hb])).step (hq a (by simp)) hs

theorem Unhalted.serving (h : w.Unhalted) (hw : w.Serving) (ha : w.Returning a) (hq : a.quiet = true)
    (hs : Step w a w' o) : w'.Serving := by
  have hloop : ∀ {v : Worker}, v.phase = w.phase → v.Serving := by
    intro v hv
    simpa only [Serving, rxOpen, hv] using hw
  have hclosed : ∀ {v : Worker}, v.phase = w.phase → v.phase ≠ .closing := by
    rintro v hv hc
    simp [Serving, rxOpen, ← hv, hc] at hw
  cases hs with
  | unmonitored phase | initLoop phase | initError phase => exact absurd phase hw.1
  | recv => exact ⟨by simp, rfl⟩
  | ret phase drained hr =>
    cases hr with
    | value | chained | notRegistered => exact ⟨by simp, rfl⟩
    | noFunction => exact absurd ha (by simp [Returning])
  | resume drained hr =>
    cases hr with
    | @halt token phase =>
      have ht := h.tokens token
      simp [holdsToken, phase] at ht
    | call | skip | drained => exact ⟨by simp, rfl⟩
    | @polled future closing phase =>
      cases closing with
      | true => simp [Serving, rxOpen, phase] at hw
      | false => exact ⟨by simp, rfl⟩
  | retThrew => exact absurd ha (by simp [Returning])
  | terminate flag | terminateCall flag | retTerminated phase flag => simp [h.terminating] at flag
  | @pollReady future polled closing phase =>
    cases closing with
    | true => exact absurd phase (hclosed rfl)
    | false => exact ⟨by simp, rfl⟩
  | close phase => exact absurd phase (hclosed rfl)
  | cancel | cancelClosing => exact absurd hw ha
  | monitorLeave => cases hq
  | monitorSend left | monitorSendFailed left => simp [h.watching] at left
  | push | newPromise | fulfil | reject | callFetch | job | pollPending | monitorDone =>
    exact hloop rfl

/-- As long as nobody halts the worker, its exceptions take it down exactly when its handler
throws, or V8 fails to make a function for it, or the task is dropped. -/
theorem survives_iff (h : (machine task).Run as w) (hq : ∀ a ∈ as, a.quiet = true) :
    (machine task).Guarded Survives as ↔ (machine task).Guarded Returning as := by
  constructor
  · intro hc
    refine h.guarded fun hp hr hs => ?_
    have hsurvives := (hc.of_prefix hp).last hr
    obtain ⟨⟨v, o⟩, hstep, rfl⟩ := Option.map_eq_some_iff.mp hs
    have hs := step_sound hstep
    have hspared := fun hw => (hsurvives hw _ _ hstep).serving
    cases hs with
    | retThrew phase =>
      have hin := (hspared ⟨by simp [phase], by simp [rxOpen, phase]⟩).2
      cases hin
    | ret phase drained hr =>
      cases hr with
      | value | chained | notRegistered => exact trivial
      | noFunction =>
        have hin := (hspared ⟨by simp [phase], by simp [rxOpen, phase]⟩).2
        cases hin
    | cancel | cancelClosing => exact fun hw => absurd (hspared hw).2 (by simp [rxOpen])
    | _ => exact trivial
  · intro hc
    refine h.guarded fun {pre a t _} hp hr hs => ?_
    have hmem : ∀ b ∈ pre ++ [a], b.quiet = true := fun b hb => hq b (hp.subset hb)
    have hun := unhalted_run hr fun b hb => hmem b (by simp [hb])
    have ha := (hc.of_prefix hp).last hr
    intro hw w' o hstep
    have hs := step_sound hstep
    have hserving := hun.serving hw ha (hmem a (by simp)) hs
    refine ⟨hserving, ?_, ?_, ?_⟩
    · rw [result_of_step hs hserving.2, hun.result hw.2]
      simp
    · rintro reply - rfl
      exact ha.elim
    · rintro rfl
      exact ha.elim

def pendingRun : List WorkerAct :=
  [.init {}, .push (.http 0), .recv, .resume, .newPromise, .ret (.promise 0 .ok), .resume,
    .push (.http 1), .recv, .resume]

theorem survives_iff_pendingRun :
    (machine ⟨"", 0⟩).Guarded Survives pendingRun ↔ (machine ⟨"", 0⟩).Guarded Returning pendingRun := by
  have hrun : (machine ⟨"", 0⟩).Run pendingRun _ := rfl
  exact survives_iff hrun (by decide)

theorem threw_ended :
    ¬ (machine ⟨"", 0⟩).Guarded Survives (pendingRun ++ [.ret .threw]) ∧
    ∃ w, (machine ⟨"", 0⟩).Run (pendingRun ++ [.ret .threw]) w ∧ w.result = some .timeout ∧
      w.repliers.drop.2 = [0] := by
  obtain ⟨w, hrun, hp⟩ : ∃ w, (machine ⟨"", 0⟩).Run pendingRun w ∧ w.phase = .calling 1 :=
    ⟨_, rfl, rfl⟩
  refine ⟨fun h => ?_, _, rfl, rfl, by decide⟩
  have hserving := (h.last hrun ⟨by simp [hp], by simp [rxOpen, hp]⟩ _ _
    (by simp only [step, hp]; rfl)).serving
  cases hserving.2

end Worker

end Serverlessd
