import Mathlib.Algebra.Ring.Parity
import Serverlessd.Runtime.Worker.Monitor

namespace Serverlessd

namespace MonitoredWorker

variable {mw mw' : MonitoredWorker} {now : Nat}

theorem inWindow_recv (h : (mw.recv now).InLoop) :
    (mw.recv now).InWindow ↔ ¬ mw.InWindow := by
  cases hp : mw.phase with
  | waiting =>
    by_cases hb : secondsLimit < asSecs mw.elapsed
    · simp [recv, hp, hb, InLoop] at h
    · simp [recv, hp, hb, InWindow]
  | window start => simp [recv, hp, InWindow]
  | left => simp [recv, hp, InLoop] at h

theorem sleep_eq_some (h : mw.sleep now = some mw') :
    ∃ start, mw.phase = .window start ∧ start + taskLimit ≤ now ∧
      mw' = { mw with phase := .left } := by
  unfold sleep at h
  split at h
  · rename_i start hp
    split at h
    · exact ⟨start, hp, ‹_›, (Option.some.inj h).symm⟩
    · cases h
  · cases h

theorem left_of_recv (h : (mw.recv now).phase = .left) :
    mw.phase = .left ∨ secondsLimit < asSecs (mw.recv now).elapsed := by
  cases hp : mw.phase with
  | waiting =>
    by_cases hb : secondsLimit < asSecs mw.elapsed
    · exact .inr (by simp [recv, hp, hb])
    · simp [recv, hp, hb] at h
  | window start => simp [recv, hp] at h
  | left => exact .inl rfl

theorem window_of_recv {start : Nat} (h : (mw.recv now).phase = .window start) :
    start = now ∧ mw.phase = .waiting := by
  cases hp : mw.phase with
  | waiting =>
    by_cases hb : secondsLimit < asSecs mw.elapsed
    · simp [recv, hp, hb] at h
    · simpa [recv, hp, hb, eq_comm] using h
  | window start => simp [recv, hp] at h
  | left => simp [recv, hp] at h

end MonitoredWorker

namespace Watch

variable {w w' : Watch} {capacity : Option Nat}

@[simp] theorem tick_now : (w.tick capacity).now = w.now := by unfold tick; split <;> rfl
@[simp] theorem tick_monitor : (w.tick capacity).monitor = w.monitor := by unfold tick; split <;> rfl
@[simp] theorem tick_received : (w.tick capacity).received = w.received := by
  unfold tick; split <;> rfl

theorem tick_of_hasRoom (h : w.hasRoom capacity) :
    w.tick capacity = { w with pending := w.pending + 1 } := if_pos h

def emitted (w : Watch) : Nat := w.received + w.pending + w.lost

@[simp] theorem emitted_tick : (w.tick capacity).emitted = w.emitted + 1 := by
  unfold tick emitted
  split <;> dsimp only <;> omega

theorem recv_eq_some (h : w.recv = some w') :
    w.monitor.InLoop ∧ 0 < w.pending ∧ w' = { w with
      pending := w.pending - 1, monitor := w.monitor.recv w.now, received := w.received + 1 } := by
  unfold recv at h
  split at h
  · cases h
  · rename_i hn
    rw [not_or] at hn
    exact ⟨hn.1, Nat.pos_of_ne_zero hn.2, (Option.some.inj h).symm⟩

theorem sleep_eq_some (h : w.sleep = some w') :
    w.pending = 0 ∧ ∃ mw, w.monitor.sleep w.now = some mw ∧ w' = { w with monitor := mw } := by
  unfold sleep at h
  split at h
  · cases h
  · obtain ⟨mw, hmw, rfl⟩ := Option.map_eq_some_iff.mp h
    exact ⟨by omega, mw, hmw, rfl⟩

def Phased (w : Watch) : Prop := w.monitor.InLoop → (w.monitor.InWindow ↔ Odd w.received)

theorem Phased.tick (h : w.Phased) : (w.tick capacity).Phased := by simpa [Phased] using h

theorem Phased.advance (h : w.Phased) (d : Nat) : (w.advance d).Phased := h

theorem Phased.recv (h : w.Phased) (hr : w.recv = some w') : w'.Phased := by
  obtain ⟨hl, -, rfl⟩ := recv_eq_some hr
  intro hl'
  rw [MonitoredWorker.inWindow_recv hl', h hl, Nat.odd_add_one]

theorem Phased.sleep (hs : w.sleep = some w') : w'.Phased := by
  obtain ⟨-, mw, hmw, rfl⟩ := sleep_eq_some hs
  obtain ⟨start, -, -, rfl⟩ := MonitoredWorker.sleep_eq_some hmw
  exact fun hl => absurd rfl hl

theorem emitted_recv (hr : w.recv = some w') : w'.emitted = w.emitted := by
  obtain ⟨-, hp, rfl⟩ := recv_eq_some hr
  simp only [emitted]
  omega

theorem emitted_sleep (hs : w.sleep = some w') : w'.emitted = w.emitted := by
  obtain ⟨-, mw, -, rfl⟩ := sleep_eq_some hs
  rfl

theorem Phased.inWindow_iff (h : w.Phased) (hl : w.monitor.InLoop) (hp : w.pending = 0) :
    (w.monitor.InWindow ↔ Odd w.emitted) ↔ Even w.lost := by
  rw [h hl, emitted, hp, Nat.add_zero, Nat.odd_add]
  by_cases hr : Odd w.received <;> simp [hr]

end Watch

namespace PairedWorker

variable {s s' : PairedWorker} {a : Act} {as : List Act}

theorem step_cases (h : step s a = some s') :
    (a = .start ∧ s.task = none ∧
      s' = { watch := s.watch.tick (some tickCapacity), task := some s.watch.now }) ∨
    (a = .finish ∧ s.task.isSome ∧
      s' = { watch := s.watch.tick (some tickCapacity), task := none }) ∨
    (a = .recv ∧ ∃ w, s.watch.recv = some w ∧ s' = { s with watch := w }) ∨
    (a = .sleep ∧ ∃ w, s.watch.sleep = some w ∧ s' = { s with watch := w }) ∨
    (∃ d, a = .advance d ∧ s' = { s with watch := s.watch.advance d }) := by
  cases a with
  | start =>
    cases ht : s.task with
    | none =>
      simp only [step, ht, Option.some.injEq] at h
      exact .inl ⟨rfl, rfl, h.symm⟩
    | some t => simp [step, ht] at h
  | finish =>
    cases ht : s.task with
    | none => simp [step, ht] at h
    | some t =>
      simp only [step, ht, Option.some.injEq] at h
      exact .inr (.inl ⟨rfl, rfl, h.symm⟩)
  | recv =>
    obtain ⟨w, hw, rfl⟩ := Option.map_eq_some_iff.mp h
    exact .inr (.inr (.inl ⟨rfl, w, hw, rfl⟩))
  | sleep =>
    obtain ⟨w, hw, rfl⟩ := Option.map_eq_some_iff.mp h
    exact .inr (.inr (.inr (.inl ⟨rfl, w, hw, rfl⟩)))
  | advance d => exact .inr (.inr (.inr (.inr ⟨d, rfl, (Option.some.inj h).symm⟩)))

structure Inv (s : PairedWorker) : Prop where
  phased : s.watch.Phased
  busy : s.task.isSome ↔ Odd s.watch.emitted

theorem Inv.step (hi : Inv s) (h : step s a = some s') : Inv s' := by
  obtain ⟨-, ht, rfl⟩ | ⟨-, ht, rfl⟩ | ⟨-, w, hw, rfl⟩ | ⟨-, w, hw, rfl⟩ | ⟨d, -, rfl⟩ :=
    step_cases h
  · refine ⟨hi.phased.tick, ?_⟩
    simpa [Nat.odd_add_one, ht] using hi.busy
  · refine ⟨hi.phased.tick, ?_⟩
    simpa [Nat.odd_add_one, ht] using hi.busy
  · exact ⟨hi.phased.recv hw, by rw [Watch.emitted_recv hw]; exact hi.busy⟩
  · exact ⟨Watch.Phased.sleep hw, by rw [Watch.emitted_sleep hw]; exact hi.busy⟩
  · exact ⟨hi.phased.advance d, hi.busy⟩

theorem inv_init : Inv machine.init where
  phased := fun _ => by simp [machine, MonitoredWorker.InWindow]
  busy := by simp [machine, Watch.emitted]

theorem inv_of_run (h : machine.Run as s) : Inv s := h.invariant inv_init Inv.step

/-- With the channel empty, the monitor is inside its window if and only if the
worker is between a start tick and its end tick. -/
def InPhase (s : PairedWorker) : Prop :=
  s.watch.monitor.InLoop → s.watch.pending = 0 →
    (s.watch.monitor.InWindow ↔ s.task.isSome)

def InTime (s : PairedWorker) : Prop := ∀ t ∈ s.task, s.watch.now < t + taskLimit

instance (s : PairedWorker) : Decidable s.InTime :=
  inferInstanceAs (Decidable (∀ t ∈ s.task, s.watch.now < t + taskLimit))

def Spared (s : PairedWorker) : Prop :=
  s.watch.monitor.phase = .left → secondsLimit < asSecs s.watch.monitor.elapsed

instance (s : PairedWorker) : Decidable s.Spared :=
  inferInstanceAs (Decidable (_ → _))

def Room (s : PairedWorker) (a : Act) : Prop := a.isTick → s.watch.hasRoom (some tickCapacity)

instance (s : PairedWorker) (a : Act) : Decidable (Room s a) :=
  inferInstanceAs (Decidable (_ → _))

structure KeepsPhase (as : List Act) : Prop where
  inPhase : machine.Always InPhase as
  spared : machine.Guarded (fun s _ => s.InTime) as → machine.Always Spared as

theorem inPhase_iff_even_lost (h : machine.Run as s) (hl : s.watch.monitor.InLoop)
    (hp : s.watch.pending = 0) :
    (s.watch.monitor.InWindow ↔ s.task.isSome) ↔ Even s.watch.lost := by
  have hi := inv_of_run h
  rw [hi.busy]
  exact hi.phased.inWindow_iff hl hp

theorem lost_step (hr : Room s a) (h : step s a = some s') : s'.watch.lost = s.watch.lost := by
  obtain ⟨rfl, -, rfl⟩ | ⟨rfl, -, rfl⟩ | ⟨-, w, hw, rfl⟩ | ⟨-, w, hw, rfl⟩ | ⟨d, -, rfl⟩ :=
    step_cases h
  · rw [Watch.tick_of_hasRoom (hr rfl)]
  · rw [Watch.tick_of_hasRoom (hr rfl)]
  · obtain ⟨-, -, rfl⟩ := Watch.recv_eq_some hw; rfl
  · obtain ⟨-, mw, -, rfl⟩ := Watch.sleep_eq_some hw; rfl
  · rfl

structure Timely (s : PairedWorker) : Prop extends Inv s where
  lost : s.watch.lost = 0
  begun : ∀ t ∈ s.task, t ≤ s.watch.now
  opened : ∀ start, s.watch.monitor.phase = .window start → ∀ t ∈ s.task, t ≤ start
  spared : s.Spared

theorem Timely.step (hi : Timely s) (hr : Room s a) (ht : s.InTime) (h : step s a = some s') :
    Timely s' := by
  have hinv := hi.toInv.step h
  have hlost := (lost_step hr h).trans hi.lost
  obtain ⟨rfl, hn, rfl⟩ | ⟨rfl, -, rfl⟩ | ⟨-, w, hw, rfl⟩ | ⟨-, w, hw, rfl⟩ | ⟨d, -, rfl⟩ :=
    step_cases h
  · refine ⟨hinv, hlost, by simp, ?_, by simpa [Spared] using hi.spared⟩
    intro start hs
    rw [Watch.tick_monitor] at hs
    have hroom : s.watch.pending = 0 := by
      simpa [Watch.hasRoom, tickCapacity] using hr rfl
    have hl : s.watch.monitor.InLoop := by simp [MonitoredWorker.InLoop, hs]
    have hbusy := (hi.busy.trans ((hi.phased.inWindow_iff hl hroom).mpr (by simp [hi.lost])).symm)
    simp [hn, MonitoredWorker.InWindow, hs] at hbusy
  · exact ⟨hinv, hlost, by simp, by simp, by simpa [Spared] using hi.spared⟩
  · obtain ⟨hl, hp, rfl⟩ := Watch.recv_eq_some hw
    refine ⟨hinv, hlost, hi.begun, ?_, ?_⟩
    · intro start hs t ht'
      obtain ⟨rfl, -⟩ := MonitoredWorker.window_of_recv hs
      exact hi.begun t ht'
    · intro hleft
      exact (MonitoredWorker.left_of_recv hleft).resolve_left hl
  · obtain ⟨hp, mw, hmw, rfl⟩ := Watch.sleep_eq_some hw
    obtain ⟨start, hs, hlate, rfl⟩ := MonitoredWorker.sleep_eq_some hmw
    have hl : s.watch.monitor.InLoop := by simp [MonitoredWorker.InLoop, hs]
    have hbusy : s.task.isSome :=
      hi.busy.mpr (((hi.phased.inWindow_iff hl hp).mpr (by simp [hi.lost])).mp ⟨start, hs⟩)
    obtain ⟨t, htask⟩ := Option.isSome_iff_exists.mp hbusy
    have h1 := hi.opened start hs t htask
    have h2 := ht t htask
    omega
  · refine ⟨hinv, hlost, ?_, hi.opened, hi.spared⟩
    intro t ht'
    exact Nat.le_trans (hi.begun t ht') (Nat.le_add_right _ _)

theorem timely_init : Timely machine.init :=
  ⟨inv_init, rfl, by simp [machine], by simp [machine], by simp [Spared, machine]⟩

theorem keepsPhase_of_room {as : List Act} (hr : machine.Guarded Room as) : KeepsPhase as where
  inPhase := by
    intro pre s hpre hrun hl hp
    refine (inPhase_iff_even_lost hrun hl hp).mpr ?_
    have hlost : s.watch.lost = 0 :=
      hrun.invariant_of_guarded (P := fun s => s.watch.lost = 0) rfl
        (fun hr h0 hs => (lost_step hr hs).trans h0) (hr.of_prefix hpre)
    simp [hlost]
  spared := by
    intro ht pre s hpre hrun
    have hC := (hr.of_prefix hpre).and (ht.of_prefix hpre)
    exact (hrun.invariant_of_guarded timely_init (fun hC hi hs => hi.step hC.1 hC.2 hs) hC).spared

/-- Where the channel is empty and the monitor still runs, the phase is right
exactly when an even number of ticks has been lost; and a run in which every tick
finds the channel empty loses none. -/
theorem tick_phase (as : List Act) :
    (∀ s, machine.Run as s → s.watch.monitor.InLoop → s.watch.pending = 0 →
      ((s.watch.monitor.InWindow ↔ s.task.isSome) ↔ Even s.watch.lost)) ∧
    (machine.Guarded Room as → KeepsPhase as) :=
  ⟨fun _ h hl hp => inPhase_iff_even_lost h hl hp, keepsPhase_of_room⟩

theorem end_tick_lost :
    ¬ KeepsPhase [.start, .finish, .recv] ∧
    ¬ KeepsPhase [.start, .finish, .recv, .advance taskLimit, .sleep] := by
  constructor
  · intro h
    have hin := h.inPhase [.start, .finish, .recv] _ List.prefix_rfl rfl (by decide) rfl
    exact absurd (hin.mp ⟨_, rfl⟩) (by decide)
  · intro h
    have hleft := h.spared (by decide) _ _ List.prefix_rfl rfl rfl
    exact absurd hleft (by decide)

theorem tick_phase_of_two_tasks :
    KeepsPhase [.start, .recv, .advance 5, .finish, .recv, .start] ∧
    ∃ s, machine.Run [.start, .recv, .advance 5] s ∧
      ((s.watch.monitor.InWindow ↔ s.task.isSome) ↔ Even s.watch.lost) :=
  ⟨(tick_phase _).2 (by decide),
    _, rfl, (tick_phase [.start, .recv, .advance 5]).1 _ rfl (by decide) rfl⟩

end PairedWorker

end Serverlessd
