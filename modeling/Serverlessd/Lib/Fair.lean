import Mathlib.Data.Nat.Find
import Serverlessd.Lib.Machine

universe u v

namespace Machine

variable {S : Type u} {A : Type v} {M : Machine S A}

structure Behaviour (M : Machine S A) where
  state : Nat → S
  act : Nat → Option A
  start : state 0 = M.init
  step : ∀ n a, act n = some a → M.step (state n) a = some (state (n + 1))
  idle : ∀ n, act n = none → state (n + 1) = state n

namespace Behaviour

variable {b : M.Behaviour} {F : A → Prop} {P : S → Prop} {n k : Nat}

def Takes (b : M.Behaviour) (F : A → Prop) (n : Nat) : Prop := ∃ a, F a ∧ b.act n = some a

/-- If from some time on there is always an action of the kind `F` that is enabled, one is taken. -/
def WeaklyFair (b : M.Behaviour) (F : A → Prop) : Prop :=
  ∀ n, (∀ m, n ≤ m → ∃ a, F a ∧ (M.step (b.state m) a).isSome) → ∃ m, n ≤ m ∧ b.Takes F m

theorem invariant (init : P M.init) (step : ∀ {s a s'}, P s → M.step s a = some s' → P s') (n : Nat) :
    P (b.state n) := by
  induction n with
  | zero => exact b.start ▸ init
  | succ n ih =>
    cases ha : b.act n with
    | none => exact b.idle n ha ▸ ih
    | some a => exact step ih (b.step n a ha)

theorem persists (keep : ∀ {s a s'}, ¬ F a → P s → M.step s a = some s' → P s') (hP : P (b.state n))
    (hk : n ≤ k) (hno : ∀ m, n ≤ m → m < k → ¬ b.Takes F m) : P (b.state k) := by
  induction k, hk using Nat.le_induction with
  | base => exact hP
  | succ k hk ih =>
    have hPk := ih fun m hm hmk => hno m hm (Nat.lt_succ_of_lt hmk)
    cases ha : b.act k with
    | none => exact b.idle k ha ▸ hPk
    | some a =>
      refine keep (fun hF => ?_) hPk (b.step k a ha)
      exact hno k hk (Nat.lt_succ_self k) ⟨a, hF, ha⟩

theorem exists_first (keep : ∀ {s a s'}, ¬ F a → P s → M.step s a = some s' → P s')
    (hP : P (b.state n)) (hex : ∃ m, n ≤ m ∧ b.Takes F m) :
    ∃ m, n ≤ m ∧ b.Takes F m ∧ P (b.state m) := by
  classical
  obtain ⟨hn, ht⟩ := Nat.find_spec hex
  refine ⟨Nat.find hex, hn, ht, persists keep hP hn fun m hm hlt ht => ?_⟩
  exact Nat.find_min hex hlt ⟨hm, ht⟩

theorem WeaklyFair.taken (hf : b.WeaklyFair F)
    (keep : ∀ {s a s'}, ¬ F a → P s → M.step s a = some s' → P s')
    (enabled : ∀ {s}, P s → ∃ a, F a ∧ (M.step s a).isSome) (hP : P (b.state n)) :
    ∃ m, n ≤ m ∧ b.Takes F m ∧ P (b.state m) := by
  refine exists_first keep hP ?_
  by_contra hno
  refine hno (hf n fun m hm => enabled (persists keep hP hm fun k hk _ ht => ?_))
  exact hno ⟨k, hk, ht⟩

def ofRun {as : List A} {s : S} (h : M.Run as s) : M.Behaviour where
  state n := (M.exec M.init (as.take n)).getD s
  act n := as[n]?
  start := rfl
  step n a ha := by
    obtain ⟨hn, rfl⟩ := List.getElem?_eq_some_iff.mp ha
    obtain ⟨t, ht, -⟩ := run_append_iff.mp ((List.take_append_drop (n + 1) as).symm ▸ h)
    rw [List.take_succ_eq_append_getElem hn] at ht ⊢
    obtain ⟨u, hu, hs⟩ := run_concat_iff.mp ht
    rw [exec_concat, hu]
    simp [hs]
  idle n ha := by
    have hn := List.getElem?_eq_none_iff.mp ha
    rw [List.take_of_length_le hn, List.take_of_length_le (Nat.le_succ_of_le hn)]

theorem ofRun_state {as : List A} {s : S} (h : M.Run as s) (hn : as.length ≤ n) :
    (ofRun h).state n = s := by
  have hs : M.exec M.init as = some s := h
  simp [ofRun, List.take_of_length_le hn, hs]

theorem ofRun_at {P : Nat → S → Prop} {as : List A} {s : S} (h : M.Run as s)
    (hP : ∀ n ≤ as.length, ∀ t ∈ M.exec M.init (as.take n), P n t) (n : Nat) :
    P (min n as.length) ((ofRun h).state n) := by
  have hle : ∀ n ≤ as.length, P n ((ofRun h).state n) := by
    intro n hn
    obtain ⟨t, ht, -⟩ := run_append_iff.mp ((List.take_append_drop n as).symm ▸ h)
    have hs : M.exec M.init (as.take n) = some t := ht
    simpa [ofRun, hs] using hP n hn t hs
  obtain hn | hn := Nat.le_total n as.length
  · exact (Nat.min_eq_left hn).symm ▸ hle n hn
  · rw [Nat.min_eq_right hn, ofRun_state h hn, ← ofRun_state h (Nat.le_refl _)]
    exact hle _ (Nat.le_refl _)

theorem ofRun_invariant {as : List A} {s : S} (h : M.Run as s)
    (hP : ∀ n ≤ as.length, ∀ t ∈ M.exec M.init (as.take n), P t) (n : Nat) :
    P ((ofRun h).state n) :=
  ofRun_at (P := fun _ => P) h hP n

theorem ofRun_weaklyFair {as : List A} {s : S} (h : M.Run as s)
    (stuck : ∀ a, F a → M.step s a = none) : (ofRun h).WeaklyFair F := by
  intro n hn
  obtain ⟨a, hF, ha⟩ := hn (max n as.length) (Nat.le_max_left _ _)
  rw [ofRun_state h (Nat.le_max_right _ _), stuck a hF] at ha
  cases ha

end Behaviour

theorem eventually_of_rank (rank : Nat → Nat) {Goal : Nat → Prop} {n : Nat}
    (down : ∀ m, n ≤ m → ∃ k, m ≤ k ∧ (Goal k ∨ rank k < rank m)) : ∃ m, n ≤ m ∧ Goal m := by
  suffices h : ∀ r m, n ≤ m → rank m = r → ∃ k, n ≤ k ∧ Goal k from h _ n (Nat.le_refl n) rfl
  intro r
  induction r using Nat.strongRecOn with
  | ind r ih =>
    intro m hm hr
    obtain ⟨k, hk, hg | hlt⟩ := down m hm
    · exact ⟨k, Nat.le_trans hm hk, hg⟩
    · exact ih (rank k) (hr ▸ hlt) k (Nat.le_trans hm hk) rfl

end Machine
