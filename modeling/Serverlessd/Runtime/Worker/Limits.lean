import Mathlib.Algebra.BigOperators.Group.Finset.Basic
import Mathlib.Data.Nat.Find
import Serverlessd.Runtime.Worker.Monitor

namespace Serverlessd

/-- What `mw.rx.recv()` returns, and when: a tick, or `None` from a closed channel. -/
structure Arrival where
  time : Nat
  tick : Bool
  deriving DecidableEq

inductive Cause
  | perWorker
  | perTask
  | closed
  deriving DecidableEq

inductive Course
  | running (mw : MonitoredWorker)
  | left (time : Nat) (cause : Cause)
  deriving DecidableEq

def MonitoredWorker.turn (mw : MonitoredWorker) (arrival : Option Arrival) : Course :=
  match mw.phase, arrival with
  | .waiting, none => .running mw
  | .waiting, some ⟨time, false⟩ => .left time .closed
  | .waiting, some ⟨time, true⟩ =>
    if (mw.recv time).InLoop then .running (mw.recv time) else .left time .perWorker
  -- the `select!` is biased, and `_` matches the `None` of a closed channel
  | .window start, some ⟨time, _⟩ =>
    if time ≤ start + taskLimit then .running (mw.recv time) else .left (start + taskLimit) .perTask
  | .window start, none => .left (start + taskLimit) .perTask
  | .left, _ => .running mw

/-- The times at which ticks are delivered, finitely or infinitely many, and the one at
which their channel is closed. -/
structure Delivery where
  tick : Nat → Option Nat
  close : Option Nat
  ordered : ∀ n t', tick (n + 1) = some t' → ∃ t, tick n = some t ∧ t < t'
  closed : ∀ c ∈ close, ∀ n t, tick n = some t → t ≤ c

namespace Delivery

def arrival (d : Delivery) (n : Nat) : Option Arrival :=
  match d.tick n with
  | some time => some ⟨time, true⟩
  | none => d.close.map fun time => ⟨time, false⟩

def course (d : Delivery) : Nat → Course
  | 0 => .running {}
  | n + 1 =>
    match d.course n with
    | .running mw => mw.turn (d.arrival n)
    | .left time cause => .left time cause

def Leaves (d : Delivery) (time : Nat) (cause : Cause) : Prop :=
  ∃ n, d.course n = .left time cause

def budget : Nat := 10 * 1000000000

def total (d : Delivery) (k : Nat) : Nat :=
  ∑ j ∈ Finset.range k, ((d.tick (2 * j + 1)).getD 0 - (d.tick (2 * j)).getD 0)

def InTime (d : Delivery) (k start : Nat) : Prop :=
  ∃ a, d.arrival (2 * k + 1) = some a ∧ a.time ≤ start + taskLimit

inductive Limit (d : Delivery) : Nat → Cause → Prop
  | perTask {k start : Nat} (tick : d.tick (2 * k) = some start) (late : ¬ d.InTime k start) :
      Limit d (start + taskLimit) .perTask
  | perWorker {k start : Nat} (tick : d.tick (2 * k) = some start)
      (exceeded : budget < d.total k) : Limit d start .perWorker

def FirstLimit (d : Delivery) (time : Nat) (cause : Cause) : Prop :=
  d.Limit time cause ∧ ∀ t c, d.Limit t c → time ≤ t

structure Enforces (d : Delivery) : Prop where
  limit : ∀ time cause, cause ≠ .closed → (d.Leaves time cause ↔ d.FirstLimit time cause)
  closed : ∀ time, d.Leaves time .closed ↔ d.close = some time ∧ ∀ t c, ¬ d.Limit t c

variable {d : Delivery} {spent : Nat → Prop} {k m n s t time : Nat} {cause c : Cause}

section Order

theorem before (h : d.tick n = some t) (hm : m < n) : ∃ s, d.tick m = some s ∧ s < t := by
  induction n generalizing t with
  | zero => omega
  | succ n ih =>
    obtain ⟨s, hs, hlt⟩ := d.ordered n t h
    obtain hm | rfl := Nat.lt_succ_iff_lt_or_eq.mp hm
    · obtain ⟨r, hr, hrs⟩ := ih hs hm
      exact ⟨r, hr, by omega⟩
    · exact ⟨s, hs, hlt⟩

theorem le_of_tick (h : d.tick n = some t) : n ≤ t := by
  induction n generalizing t with
  | zero => exact Nat.zero_le t
  | succ n ih =>
    obtain ⟨s, hs, hlt⟩ := d.ordered n t h
    have := ih hs
    omega

theorem tick_inj (hm : d.tick m = some t) (hn : d.tick n = some t) : m = n := by
  rcases Nat.lt_trichotomy m n with h | h | h
  · obtain ⟨s, hs, hlt⟩ := before hn h
    simp_all
  · exact h
  · obtain ⟨s, hs, hlt⟩ := before hm h
    simp_all

theorem arrival_of_tick (h : d.tick n = some t) : d.arrival n = some ⟨t, true⟩ := by
  simp [arrival, h]

theorem arrival_le {a : Arrival} (ha : d.arrival m = some a) (h : d.tick n = some t) (hm : m ≤ n) :
    a.time ≤ t := by
  obtain hm | rfl := Nat.lt_or_eq_of_le hm
  · obtain ⟨s, hs, hlt⟩ := before h hm
    obtain rfl := Option.some.inj ((arrival_of_tick hs).symm.trans ha)
    exact Nat.le_of_lt hlt
  · obtain rfl := Option.some.inj ((arrival_of_tick h).symm.trans ha)
    exact Nat.le_refl _

end Order

def Passed (d : Delivery) (spent : Nat → Prop) (k : Nat) : Prop :=
  ∀ j < k, ∃ s, d.tick (2 * j) = some s ∧ ¬ spent (d.total j) ∧ d.InTime j s

inductive Ends (d : Delivery) (spent : Nat → Prop) (k : Nat) : Nat → Cause → Prop
  | perWorker {s : Nat} (tick : d.tick (2 * k) = some s) (exceeded : spent (d.total k)) :
      Ends d spent k s .perWorker
  | perTask {s : Nat} (tick : d.tick (2 * k) = some s) (within : ¬ spent (d.total k))
      (late : ¬ d.InTime k s) : Ends d spent k (s + taskLimit) .perTask
  | closed {c : Nat} (tick : d.tick (2 * k) = none) (close : d.close = some c) :
      Ends d spent k c .closed

def Stops (d : Delivery) (spent : Nat → Prop) (time : Nat) (cause : Cause) : Prop :=
  ∃ k, d.Passed spent k ∧ d.Ends spent k time cause

theorem Passed.mono (h : d.Passed spent k) (hm : m ≤ k) : d.Passed spent m :=
  fun j hj => h j (Nat.lt_of_lt_of_le hj hm)

theorem passed_or_stops (d : Delivery) (spent : Nat → Prop) :
    (∀ k, d.Passed spent k) ∨ (∃ time cause, d.Stops spent time cause) ∨
      ∃ k, d.Passed spent k ∧ d.tick (2 * k) = none ∧ d.close = none := by
  by_cases hall : ∀ k, d.Passed spent k
  · exact .inl hall
  refine .inr ?_
  obtain ⟨k, hk, hnot⟩ : ∃ k, d.Passed spent k ∧ ¬ d.Passed spent (k + 1) := by
    by_contra hnone
    refine hall fun k => ?_
    induction k with
    | zero => exact fun j hj => absurd hj (Nat.not_lt_zero j)
    | succ k ih => exact not_not.mp fun hn => hnone ⟨k, ih, hn⟩
  cases ht : d.tick (2 * k) with
  | none =>
    cases hc : d.close with
    | none => exact .inr ⟨k, hk, ht, rfl⟩
    | some c => exact .inl ⟨c, .closed, k, hk, .closed ht hc⟩
  | some s =>
    refine .inl ?_
    by_cases ho : spent (d.total k)
    · exact ⟨s, .perWorker, k, hk, .perWorker ht ho⟩
    · refine ⟨s + taskLimit, .perTask, k, hk, .perTask ht ho fun hin => hnot ?_⟩
      intro j hj
      obtain hj | rfl := Nat.lt_succ_iff_lt_or_eq.mp hj
      · exact hk j hj
      · exact ⟨s, ht, ho, hin⟩

section Course

theorem course_succ_running {mw : MonitoredWorker} (h : d.course n = .running mw) :
    d.course (n + 1) = mw.turn (d.arrival n) := by
  simp [course, h]

theorem course_left (h : d.course n = .left time cause) (hm : n ≤ m) :
    d.course m = .left time cause := by
  induction m, hm using Nat.le_induction with
  | base => exact h
  | succ m _ ih => simp [course, ih]

theorem Leaves.unique (h : d.Leaves time cause) (h' : d.Leaves t c) : time = t ∧ cause = c := by
  obtain ⟨n, hn⟩ := h
  obtain ⟨m, hm⟩ := h'
  have hl := course_left hn (Nat.le_max_left n m)
  rw [course_left hm (Nat.le_max_right n m)] at hl
  cases hl
  exact ⟨rfl, rfl⟩

def OverSecs (elapsed : Nat) : Prop := secondsLimit < asSecs elapsed

theorem course_passed (h : d.Passed OverSecs k) : ∃ mw, d.course (2 * k) = .running mw ∧
    mw.phase = .waiting ∧ ((d.tick (2 * k)).isSome → mw.elapsed = d.total k) := by
  induction k with
  | zero => exact ⟨{}, rfl, rfl, fun _ => rfl⟩
  | succ k ih =>
    obtain ⟨mw, hmw, hp, he⟩ := ih (h.mono (Nat.le_succ k))
    obtain ⟨s, hs, hwithin, a, ha, hin⟩ := h k (Nat.lt_succ_self k)
    have he := he (by simp [hs])
    have hrecv : mw.recv s = { mw with phase := .window s } := by
      have hle : ¬ secondsLimit < asSecs mw.elapsed := he ▸ hwithin
      simp [MonitoredWorker.recv, hp, hle]
    have hstart : d.course (2 * k + 1) = .running { mw with phase := .window s } := by
      rw [course_succ_running hmw, arrival_of_tick hs]
      simp [MonitoredWorker.turn, hp, hrecv, MonitoredWorker.InLoop]
    refine ⟨{ elapsed := mw.elapsed + (a.time - s), phase := .waiting }, ?_, rfl, fun hnext => ?_⟩
    · rw [show 2 * (k + 1) = 2 * k + 1 + 1 by omega, course_succ_running hstart, ha]
      simp [MonitoredWorker.turn, hin, MonitoredWorker.recv]
    · obtain ⟨t, ht⟩ := Option.isSome_iff_exists.mp hnext
      obtain ⟨e, hend, -⟩ := before ht (show 2 * k + 1 < 2 * (k + 1) by omega)
      obtain rfl := Option.some.inj ((arrival_of_tick hend).symm.trans ha)
      simp [total, Finset.sum_range_succ, hs, hend, he]

theorem leaves_of_stops (h : d.Stops OverSecs time cause) : d.Leaves time cause := by
  obtain ⟨k, hk, hend⟩ := h
  obtain ⟨mw, hmw, hp, he⟩ := course_passed hk
  cases hend with
  | closed tick close =>
    refine ⟨2 * k + 1, ?_⟩
    rw [course_succ_running hmw]
    simp [MonitoredWorker.turn, hp, arrival, tick, close]
  | perWorker tick exceeded =>
    have hlt : secondsLimit < asSecs mw.elapsed := by
      rw [he (by simp [tick])]
      exact exceeded
    refine ⟨2 * k + 1, ?_⟩
    rw [course_succ_running hmw, arrival_of_tick tick]
    simp [MonitoredWorker.turn, hp, MonitoredWorker.recv, hlt, MonitoredWorker.InLoop]
  | @perTask s tick within late =>
    have hle : ¬ secondsLimit < asSecs mw.elapsed := by
      rw [he (by simp [tick])]
      exact within
    have hstart : d.course (2 * k + 1) = .running { mw with phase := .window s } := by
      rw [course_succ_running hmw, arrival_of_tick tick]
      simp [MonitoredWorker.turn, hp, MonitoredWorker.recv, hle, MonitoredWorker.InLoop]
    refine ⟨2 * k + 1 + 1, ?_⟩
    rw [course_succ_running hstart]
    cases ha : d.arrival (2 * k + 1) with
    | none => simp [MonitoredWorker.turn]
    | some a =>
      have hlate : ¬ a.time ≤ s + taskLimit := fun hin => late ⟨a, ha, hin⟩
      simp [MonitoredWorker.turn, hlate]

theorem leaves_iff : d.Leaves time cause ↔ d.Stops OverSecs time cause := by
  refine ⟨fun h => ?_, leaves_of_stops⟩
  obtain hall | ⟨t, c, hs⟩ | ⟨k, hk, htick, hclose⟩ := passed_or_stops d OverSecs
  · obtain ⟨n, hn⟩ := h
    obtain ⟨mw, hmw, -⟩ := course_passed (hall n)
    rw [course_left hn (by omega)] at hmw
    cases hmw
  · obtain ⟨rfl, rfl⟩ := h.unique (leaves_of_stops hs)
    exact hs
  · obtain ⟨mw, hmw, hp, -⟩ := course_passed hk
    have hforever : ∀ m, 2 * k ≤ m → d.course m = .running mw := by
      intro m hm
      induction m, hm using Nat.le_induction with
      | base => exact hmw
      | succ m hm ih =>
        have hnone : d.tick m = none := by
          refine Option.eq_none_iff_forall_not_mem.mpr fun t ht => ?_
          obtain hm | rfl := Nat.lt_or_eq_of_le hm
          · obtain ⟨s, hs, -⟩ := before ht hm
            simp [htick] at hs
          · simp [htick] at ht
        rw [course_succ_running ih]
        simp [MonitoredWorker.turn, hp, arrival, hnone, hclose]
    obtain ⟨n, hn⟩ := h
    have hl := course_left hn (Nat.le_max_left n (2 * k))
    rw [hforever _ (Nat.le_max_right n (2 * k))] at hl
    cases hl

end Course

section Limits

/-- The budget in nanoseconds, where the code compares whole seconds. -/
def OverBudget (elapsed : Nat) : Prop := budget < elapsed

theorem overSecs_iff : OverSecs n ↔ 11 * 1000000000 ≤ n := by
  simp only [OverSecs, secondsLimit, asSecs]
  omega

theorem overBudget_of_overSecs (h : OverSecs n) : OverBudget n := by
  rw [overSecs_iff] at h
  simp only [OverBudget, budget]
  omega

theorem limit_cases (h : d.Limit time cause) : ∃ k s, d.tick (2 * k) = some s ∧
    (OverBudget (d.total k) ∧ time = s ∨ ¬ d.InTime k s ∧ time = s + taskLimit) := by
  cases h with
  | @perTask k s tick late => exact ⟨k, s, tick, .inr ⟨late, rfl⟩⟩
  | @perWorker k s tick exceeded => exact ⟨k, _, tick, .inl ⟨exceeded, rfl⟩⟩

theorem Passed.limit_cases (h : d.Passed OverBudget k) (hl : d.Limit time cause) :
    ∃ m s, k ≤ m ∧ d.tick (2 * m) = some s ∧
      (OverBudget (d.total m) ∧ time = s ∨ ¬ d.InTime m s ∧ time = s + taskLimit) := by
  obtain ⟨m, s, hs, hcases⟩ := Delivery.limit_cases hl
  refine ⟨m, s, Nat.le_of_not_lt fun hlt => ?_, hs, hcases⟩
  obtain ⟨r, hr, hwithin, hin⟩ := h m hlt
  obtain rfl := Option.some.inj (hr.symm.trans hs)
  obtain ⟨ho, -⟩ | ⟨hlate, -⟩ := hcases
  · exact hwithin ho
  · exact hlate hin

theorem FirstLimit.passed (h : d.FirstLimit time cause) (hs : d.tick (2 * k) = some s)
    (hle : s ≤ time) : d.Passed OverBudget k := by
  intro j hj
  obtain ⟨r, hr, hlt⟩ := before hs (show 2 * j < 2 * k by omega)
  refine ⟨r, hr, fun ho => ?_, not_not.mp fun hlate => ?_⟩
  · have := h.2 _ _ (.perWorker hr ho)
    omega
  · have hfirst := h.2 _ _ (.perTask hr hlate)
    obtain ⟨e, he, -⟩ := before hs (show 2 * j + 1 < 2 * k by omega)
    have hin := arrival_le (arrival_of_tick he) hs (by omega)
    exact hlate ⟨_, arrival_of_tick he, hin.trans (hle.trans hfirst)⟩

theorem firstLimit_iff (hc : cause ≠ .closed) :
    d.FirstLimit time cause ↔ d.Stops OverBudget time cause := by
  constructor
  · intro h
    cases h.1 with
    | @perWorker k s tick exceeded => exact ⟨k, h.passed tick (Nat.le_refl _), .perWorker tick exceeded⟩
    | @perTask k s tick late =>
      refine ⟨k, h.passed tick (Nat.le_add_right _ _), .perTask tick (fun ho => ?_) late⟩
      have := h.2 _ _ (.perWorker tick ho)
      simp only [taskLimit] at this
      omega
  · rintro ⟨k, hk, hend⟩
    cases hend with
    | closed => exact absurd rfl hc
    | perWorker tick exceeded =>
      refine ⟨.perWorker tick exceeded, fun t c hl => ?_⟩
      obtain ⟨m, r, hkm, hr, hcases⟩ := hk.limit_cases hl
      have hle : time ≤ r := arrival_le (arrival_of_tick tick) hr (by omega)
      omega
    | @perTask s tick within late =>
      refine ⟨.perTask tick late, fun t c hl => ?_⟩
      obtain ⟨m, r, hkm, hr, hcases⟩ := hk.limit_cases hl
      obtain hkm | rfl := Nat.lt_or_eq_of_le hkm
      · -- the end tick of task `k` came after its limit, and before task `m`
        obtain ⟨e, he, hlt⟩ := before hr (show 2 * k + 1 < 2 * m by omega)
        have hlate : ¬ e ≤ s + taskLimit := fun hle => late ⟨_, arrival_of_tick he, hle⟩
        omega
      · obtain rfl := Option.some.inj (hr.symm.trans tick)
        obtain ⟨ho, -⟩ | ⟨-, rfl⟩ := hcases
        · exact absurd ho within
        · exact Nat.le_refl _

theorem exists_last (h : d.close = some time) :
    ∃ n, d.tick n = none ∧ ∀ m < n, (d.tick m).isSome := by
  have hnone : ∃ n, d.tick n = none := by
    refine ⟨time + 1, Option.eq_none_iff_forall_not_mem.mpr fun t ht => ?_⟩
    have hle := d.closed time h _ t ht
    have := le_of_tick ht
    omega
  refine ⟨Nat.find hnone, Nat.find_spec hnone, fun m hm => ?_⟩
  exact Option.isSome_iff_ne_none.mpr (Nat.find_min hnone hm)

theorem closed_iff : (d.close = some time ∧ ∀ t c, ¬ d.Limit t c) ↔
    d.Stops OverBudget time .closed := by
  constructor
  · rintro ⟨hclose, hno⟩
    obtain ⟨n, hn, hbefore⟩ := exists_last hclose
    have hpassed : d.Passed OverBudget ((n + 1) / 2) := by
      intro j hj
      obtain ⟨s, hs⟩ := Option.isSome_iff_exists.mp (hbefore (2 * j) (by omega))
      exact ⟨s, hs, fun ho => hno _ _ (.perWorker hs ho),
        not_not.mp fun hlate => hno _ _ (.perTask hs hlate)⟩
    refine ⟨_, hpassed, .closed ?_ hclose⟩
    refine Option.eq_none_iff_forall_not_mem.mpr fun t ht => ?_
    obtain hlt | he := Nat.lt_or_eq_of_le (show n ≤ 2 * ((n + 1) / 2) by omega)
    · obtain ⟨s, hs, -⟩ := before ht hlt
      simp [hn] at hs
    · simp [← he, hn] at ht
  · rintro ⟨k, hk, hend⟩
    cases hend with
    | closed tick close =>
      refine ⟨close, fun t c hl => ?_⟩
      obtain ⟨m, r, hkm, hr, -⟩ := hk.limit_cases hl
      obtain hlt | he := Nat.lt_or_eq_of_le (show 2 * k ≤ 2 * m by omega)
      · obtain ⟨s, hs, -⟩ := before hr hlt
        simp [tick] at hs
      · simp [← he, tick] at hr

theorem enforces_iff_stops : d.Enforces ↔
    ∀ time cause, d.Stops OverSecs time cause ↔ d.Stops OverBudget time cause := by
  constructor
  · intro h time cause
    rw [← leaves_iff]
    by_cases hc : cause = .closed
    · subst hc
      exact (h.closed time).trans closed_iff
    · exact (h.limit time cause hc).trans (firstLimit_iff hc)
  · intro h
    refine ⟨fun time cause hc => ?_, fun time => ?_⟩
    · rw [leaves_iff, h, firstLimit_iff hc]
    · rw [leaves_iff, h, closed_iff]

def WholeSeconds (d : Delivery) : Prop :=
  ∀ k, d.Passed OverBudget k → (d.tick (2 * k)).isSome → budget < d.total k →
    11 * 1000000000 ≤ d.total k

theorem WholeSeconds.overSecs (h : d.WholeSeconds) (hk : d.Passed OverBudget k)
    (hs : d.tick (2 * k) = some s) : OverSecs (d.total k) ↔ OverBudget (d.total k) :=
  ⟨overBudget_of_overSecs, fun ho => overSecs_iff.mpr (h k hk (by simp [hs]) ho)⟩

theorem WholeSeconds.passed_iff (h : d.WholeSeconds) :
    d.Passed OverSecs k ↔ d.Passed OverBudget k := by
  induction k with
  | zero => simp [Passed]
  | succ k ih =>
    constructor
    · intro hk j hj
      obtain ⟨s, hs, hwithin, hin⟩ := hk j hj
      have hj := ih.mp (hk.mono (Nat.le_succ k)) |>.mono (Nat.le_of_lt_succ hj)
      exact ⟨s, hs, fun ho => hwithin ((h.overSecs hj hs).mpr ho), hin⟩
    · intro hk j hj
      obtain ⟨s, hs, hwithin, hin⟩ := hk j hj
      exact ⟨s, hs, fun ho => hwithin (overBudget_of_overSecs ho), hin⟩

theorem WholeSeconds.ends_iff (h : d.WholeSeconds) (hk : d.Passed OverBudget k) :
    d.Ends OverSecs k time cause ↔ d.Ends OverBudget k time cause := by
  constructor
  · intro hend
    cases hend with
    | perWorker tick exceeded => exact .perWorker tick ((h.overSecs hk tick).mp exceeded)
    | perTask tick within late => exact .perTask tick (mt (h.overSecs hk tick).mpr within) late
    | closed tick close => exact .closed tick close
  · intro hend
    cases hend with
    | perWorker tick exceeded => exact .perWorker tick ((h.overSecs hk tick).mpr exceeded)
    | perTask tick within late => exact .perTask tick (mt (h.overSecs hk tick).mp within) late
    | closed tick close => exact .closed tick close

theorem not_stops_of_lt (hs : d.tick (2 * k) = some s) (hlt : d.total k < 11 * 1000000000) :
    ¬ d.Stops OverSecs s .perWorker := by
  rintro ⟨m, -, hend⟩
  cases hend with
  | perWorker tick exceeded =>
    obtain rfl : m = k := by
      have := tick_inj tick hs
      omega
    rw [overSecs_iff] at exceeded
    omega

/-- The monitor enforces its limits exactly when the budget is never exceeded by less than
a second. -/
theorem enforces_iff (d : Delivery) : d.Enforces ↔ d.WholeSeconds := by
  rw [enforces_iff_stops]
  constructor
  · intro h k hk hsome ho
    obtain ⟨s, hs⟩ := Option.isSome_iff_exists.mp hsome
    refine Nat.le_of_not_lt fun hlt => not_stops_of_lt hs hlt ?_
    exact (h s .perWorker).mpr ⟨k, hk, .perWorker hs ho⟩
  · intro h time cause
    refine exists_congr fun k => ?_
    rw [h.passed_iff]
    exact and_congr_right fun hk => h.ends_iff hk

end Limits

def steady : Delivery where
  tick n := some (n * taskLimit)
  close := none
  ordered n t' h := ⟨n * taskLimit, rfl, by
    obtain rfl := Option.some.inj h
    simp only [taskLimit]
    omega⟩
  closed := by simp

theorem total_steady (k : Nat) : steady.total k = k * taskLimit := by
  induction k with
  | zero => rfl
  | succ k ih =>
    rw [total, Finset.sum_range_succ, ← total, ih]
    simp only [steady, Option.getD_some, taskLimit]
    omega

theorem over_budget_started : ¬ steady.Enforces ∧ budget < steady.total 101 ∧
    steady.tick (2 * 101) = some (202 * taskLimit) ∧
    ¬ steady.Leaves (202 * taskLimit) .perWorker := by
  have hstops : ¬ steady.Stops OverSecs (202 * taskLimit) .perWorker := by
    refine not_stops_of_lt (k := 101) rfl ?_
    rw [total_steady]
    decide
  have hover : budget < steady.total 101 := by
    rw [total_steady]
    decide
  refine ⟨fun h => hstops ((enforces_iff_stops.mp h _ _).mpr ⟨101, fun j hj => ?_, ?_⟩), hover, rfl,
    fun hl => hstops (leaves_iff.mp hl)⟩
  · refine ⟨_, rfl, ?_, _, rfl, ?_⟩
    · rw [total_steady]
      simp only [OverBudget, budget, taskLimit]
      omega
    · simp only [taskLimit]
      omega
  · exact .perWorker rfl hover

end Delivery

end Serverlessd
