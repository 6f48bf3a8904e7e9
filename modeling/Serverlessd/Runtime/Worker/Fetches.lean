import Serverlessd.Runtime.Worker.Monitored

namespace Serverlessd

def WorkerAct.ofFetch : WorkerAct → Bool
  | .poll _ _ | .newPromise | .fulfil _ _ | .reject _ | .callFetch | .job | .resume => true
  | _ => false

namespace Worker

variable {w w' : Worker} {o : WorkerOut} {a : WorkerAct}

def Fetching (w : Worker) : Prop :=
  w.phase = .parked ∨ w.phase = .closing ∨ ∃ future closing, w.phase = .polling future closing

theorem Fetching.resumed (h : w.Fetching) (hr : Resumed w w' o) :
    ∃ future closing, w.phase = .polling future closing ∧ o.ticks = 1 ∧ w' = { w with
      phase := if closing then .closing else .parked
      futures := w.futures.eraseIdx future } := by
  cases hr with
  | polled phase => exact ⟨_, _, phase, rfl, rfl⟩
  | halt phase | call phase | skip phase | drained phase => simp [Fetching, phase] at h

theorem Fetching.step (h : w.Fetching) (ha : a.ofFetch = true) (hs : Step w a w' o) :
    w'.Fetching := by
  cases hs with
  | newPromise | fulfil | reject | callFetch | job | pollPending => exact h
  | resume drained hr =>
    obtain ⟨future, closing, -, -, rfl⟩ := h.resumed hr
    cases closing with
    | true => exact .inr (.inl rfl)
    | false => exact .inl rfl
  | pollReady => exact .inr (.inr ⟨_, _, rfl⟩)
  | _ => cases ha

theorem taken_of_fetch (hw : w.Linked) (h : w.Fetching) (ha : a.ofFetch = true)
    (hs : Step w a w' o) : w.repliers.taken ≤ w'.repliers.taken := by
  cases hs with
  | @job ptr _ _ js head =>
    have hlive := hw.live_of_job (phase_ne_closed_of_inJs js) (by rw [head]; exact List.mem_cons_self)
    exact (Repliers.taken_take hlive).symm ▸ Nat.le_succ _
  | newPromise | fulfil | reject | callFetch | pollPending | pollReady => exact Nat.le_refl _
  | resume drained hr =>
    obtain ⟨future, closing, -, -, rfl⟩ := h.resumed hr
    exact Nat.le_refl _
  | _ => cases ha

theorem even_of_fetch (hw : w.Linked) (hf : w.Polled) (h : w.Fetching) (ha : a.ofFetch = true)
    (hs : Step w a w' o) : Even (w.unpaired + o.ticks + w'.unpaired) := by
  cases hs with
  | newPromise | fulfil | reject => exact even_of_eq (unpaired_congr rfl rfl rfl) Even.zero
  | callFetch js => exact even_of_eq (unpaired_callFetch hf) Even.zero
  | job js head => exact even_job hw js head
  | pollPending phase live => exact even_pollPending phase live
  | pollReady phase live => exact even_pollReady phase live
  | resume drained hr =>
    obtain ⟨future, closing, phase, hticks, rfl⟩ := h.resumed hr
    exact hticks.symm ▸ even_polled hf phase
  | _ => cases ha

end Worker

namespace Watched

def Act.ofFetch : Act → Bool
  | .worker a => a.ofFetch
  | _ => true

def fetching (w : Worker) (now elapsed : Nat) : Machine Watched Act where
  init := { worker := w, watch := { now, monitor := { elapsed } } }
  step s a := if a.ofFetch then s.step a else none

def Idle (s : Watched) : Prop := s.worker.phase = .parked ∨ s.worker.phase = .closing

/-- Waiting for a response is not charged, and what a completion runs is. -/
structure Charged (s : Watched) : Prop where
  waiting : s.Idle → s.watch.monitor.InLoop → s.watch.pending = 0 → s.watch.monitor.phase = .waiting
  sleep : s.Idle → s.watch.sleep = none
  window : ∀ future closing, s.worker.phase = .polling future closing →
    s.watch.monitor.InLoop → s.watch.pending = 0 → s.watch.monitor.InWindow

def callbacks (w : Worker) (s : Watched) : Nat := s.worker.repliers.taken - w.repliers.taken

structure EvenlyPolled (w : Worker) (s : Watched) : Prop where
  idle : s.Idle → s.watch.monitor.InLoop → s.watch.pending = 0 →
    Even (callbacks w s + s.worker.futures.count true)
  completing : ∀ future closing, s.worker.phase = .polling future closing →
    s.watch.monitor.InLoop → s.watch.pending = 0 →
    Even (callbacks w s + (s.worker.futures.eraseIdx future).count true)

/-- What the schedule keeps: ticks without a partner come from polled futures and callbacks. -/
structure Fetched (w : Worker) (s : Watched) : Prop where
  linked : s.worker.Linked
  polled : s.worker.Polled
  fetching : s.worker.Fetching
  phased : s.watch.Phased
  lost : s.watch.lost = 0
  taken : w.repliers.taken ≤ s.worker.repliers.taken
  parity : Even (s.watch.emitted + s.worker.unpaired + w.repliers.taken)

variable {s s' : Watched} {a : Act} {w : Worker} {task : WorkerTask} {ws : List WorkerAct}

theorem Fetched.step (h : Fetched w s) (ha : a.ofFetch = true) (hs : s.step a = some s') :
    Fetched w s' := by
  obtain ⟨v, watch⟩ := s'
  obtain ⟨b, o, rfl, hb, hs, rfl⟩ | ⟨hw, hs⟩ := step_cases hs
  · have heven := Worker.even_of_fetch h.linked h.polled h.fetching ha hs
    have htaken := Worker.taken_of_fetch h.linked h.fetching ha hs
    have hparity := h.parity
    refine ⟨h.linked.step hs, h.polled.step hs, h.fetching.step ha hs, h.phased.ticks,
      by simpa using h.lost, Nat.le_trans h.taken htaken, ?_⟩
    simp only [Watch.emitted_ticks]
    grind
  · obtain ⟨hlost, hemitted, -⟩ := hw.kept
    have hphased := h.phased.moves hw
    have hlost := hlost.trans h.lost
    obtain rfl | ⟨-, o, hs⟩ := hs
    · exact ⟨h.linked, h.polled, h.fetching, hphased, hlost, h.taken, hemitted ▸ h.parity⟩
    · have hlinked := h.linked.step hs
      have hpolled := h.polled.step hs
      cases hs with
      | monitorLeave =>
        exact ⟨hlinked, hpolled, h.fetching, hphased, hlost, h.taken, hemitted ▸ h.parity⟩

theorem fetched_init (hr : (Worker.machine task).Run ws w)
    (hp : w.phase = .parked ∨ w.phase = .closing) (hf : true ∉ w.futures) (now elapsed : Nat) :
    Fetched w (fetching w now elapsed).init where
  linked := Worker.linked_run hr
  polled := Worker.polled_of_phase (by obtain hp | hp := hp <;> simp [fetching, hp])
    (by obtain hp | hp := hp <;> simp [fetching, hp])
  fetching := hp.imp_right .inl
  phased := fun _ => by simp [fetching, MonitoredWorker.InWindow]
  lost := rfl
  taken := Nat.le_refl _
  parity := by
    have hunpaired := Worker.unpaired_of_phase (w := w) (by obtain hp | hp := hp <;> simp [hp])
      (by obtain hp | hp := hp <;> simp [hp])
    simp [fetching, Watch.emitted, hunpaired, List.count_eq_zero.mpr hf]

theorem Fetched.even_emitted_iff (h : Fetched w s) (hi : s.Idle) :
    Even s.watch.emitted ↔ Even (callbacks w s + s.worker.futures.count true) := by
  have hparity := h.parity
  have htaken := h.taken
  rw [Worker.unpaired_of_phase (by obtain hp | hp := hi <;> simp [hp])
    (by obtain hp | hp := hi <;> simp [hp])] at hparity
  unfold callbacks
  obtain ⟨d, hd⟩ := Nat.exists_eq_add_of_le htaken
  rw [hd] at hparity ⊢
  grind

theorem Fetched.odd_emitted_iff (h : Fetched w s) {future : Nat} {closing : Bool}
    (hp : s.worker.phase = .polling future closing) :
    Odd s.watch.emitted ↔
      Even (callbacks w s + (s.worker.futures.eraseIdx future).count true) := by
  have hparity := h.parity
  have htaken := h.taken
  have hlt := h.polled.polling future closing hp
  have herase := (List.getElem_cons_eraseIdx_perm hlt).count_eq true
  rw [Worker.unpaired_of_polling hp, List.getElem?_eq_getElem hlt] at hparity
  unfold callbacks
  obtain ⟨d, hd⟩ := Nat.exists_eq_add_of_le htaken
  rw [hd] at hparity ⊢
  cases hb : s.worker.futures[future] <;> simp [hb] at herase hparity <;> grind

theorem Fetched.charged_iff_even (h : Fetched w s) : Charged s ↔ EvenlyPolled w s := by
  have hwindow : s.watch.monitor.InLoop → s.watch.pending = 0 →
      (s.watch.monitor.InWindow ↔ Odd s.watch.emitted) :=
    fun hl he => (h.phased.inWindow_iff hl he).mpr (by simp [h.lost])
  constructor
  · intro hc
    refine ⟨fun hi hl he => ?_, fun future closing hp hl he => ?_⟩
    · exact (h.even_emitted_iff hi).mp ((h.phased.waiting_iff h.lost hl he).mp (hc.waiting hi hl he))
    · exact (h.odd_emitted_iff hp).mp ((hwindow hl he).mp (hc.window future closing hp hl he))
  · intro hc
    have hwaiting : s.Idle → s.watch.monitor.InLoop → s.watch.pending = 0 →
        s.watch.monitor.phase = .waiting := fun hi hl he =>
      (h.phased.waiting_iff h.lost hl he).mpr ((h.even_emitted_iff hi).mpr (hc.idle hi hl he))
    refine ⟨hwaiting, fun hi => Watch.sleep_eq_none (hwaiting hi), fun future closing hp hl he => ?_⟩
    exact (hwindow hl he).mpr ((h.odd_emitted_iff hp).mpr (hc.completing future closing hp hl he))

/-- Along every schedule of the polls of a worker's futures, the monitor charges for
JavaScript and not for waiting exactly as long as the futures that were polled come in pairs. -/
theorem charged_iff (hr : (Worker.machine task).Run ws w)
    (hp : w.phase = .parked ∨ w.phase = .closing) (hf : true ∉ w.futures) (now elapsed : Nat)
    (as : List Act) : (fetching w now elapsed).Always Charged as ↔
      (fetching w now elapsed).Always (EvenlyPolled w) as := by
  have hfetched : (fetching w now elapsed).Always (Fetched w) as := by
    refine Machine.always_of_invariant (fetched_init hr hp hf now elapsed) ?_ as
    intro s a s' h hs
    obtain ⟨ha, hs⟩ := Option.ite_none_right_eq_some.mp hs
    exact h.step ha hs
  exact forall₄_congr fun pre s hp hr => (hfetched pre s hp hr).charged_iff_even

def oneFetch : Worker := { task := ⟨"", 0⟩, phase := .parked, fetch := true, futures := [false] }

theorem charged_iff_of_oneFetch : (fetching oneFetch 0 0).Always Charged [.worker (.poll 0 true)] ↔
    (fetching oneFetch 0 0).Always (EvenlyPolled oneFetch) [.worker (.poll 0 true)] := by
  have hrun : (Worker.machine ⟨"", 0⟩).Run [.init { fetches := 1 }] oneFetch := rfl
  exact charged_iff hrun (.inl rfl) (by decide) 0 0 _

def pendingPoll : List Act := [.worker (.poll 0 false), .recv, .recv, .recv]

theorem fetch_charged :
    ¬ (fetching oneFetch 0 0).Always Charged pendingPoll ∧
    ∃ s, (fetching oneFetch 0 0).Run (pendingPoll ++ [.advance taskLimit, .sleep]) s ∧
      s.Idle ∧ s.worker.terminating = true := by
  refine ⟨fun h => ?_, _, rfl, .inl rfl, rfl⟩
  have hwaiting := (h _ _ List.prefix_rfl rfl).waiting (.inl rfl) (by decide) rfl
  exact absurd hwaiting (by decide)

end Watched

end Serverlessd
