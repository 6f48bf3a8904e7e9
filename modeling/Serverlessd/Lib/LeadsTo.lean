import Serverlessd.Lib.Fair

universe u v w x

namespace Machine

variable {S : Type u} {A : Type v} {M : Machine S A}

namespace Behaviour

variable {b : M.Behaviour} {F : A → Prop} {P Q : S → Prop} {n k : Nat}

def LeadsTo (b : M.Behaviour) (P Q : S → Prop) : Prop :=
  ∀ n, P (b.state n) → ∃ m, n ≤ m ∧ Q (b.state m)

def Unless (b : M.Behaviour) (P Q : S → Prop) : Prop :=
  ∀ n a, b.act n = some a → P (b.state n) → P (b.state (n + 1)) ∨ Q (b.state (n + 1))

theorem Unless.holds (h : b.Unless P Q) (hP : P (b.state n)) (hk : n ≤ k) :
    P (b.state k) ∨ ∃ m, n ≤ m ∧ Q (b.state m) := by
  induction k, hk using Nat.le_induction with
  | base => exact .inl hP
  | succ k hk ih =>
    obtain hPk | hQ := ih
    · cases ha : b.act k with
      | none => exact .inl (b.idle k ha ▸ hPk)
      | some a => exact (h k a ha hPk).imp_right fun hQ => ⟨k + 1, Nat.le_succ_of_le hk, hQ⟩
    · exact .inr hQ

theorem stays (keep : ∀ {s a s'}, P s → M.step s a = some s' → P s') (hP : P (b.state n))
    (hk : n ≤ k) : P (b.state k) :=
  persists (F := fun _ => False) (fun _ h hs => keep h hs) hP hk fun _ _ _ ⟨_, hF, _⟩ => hF

theorem leadsTo_of_takes
    (step : ∀ n a, b.act n = some a → P (b.state n) →
      ¬ F a ∧ P (b.state (n + 1)) ∨ Q (b.state (n + 1)))
    (takes : ∀ n, (∀ m, n ≤ m → P (b.state m)) → ∃ m, n ≤ m ∧ b.Takes F m) : b.LeadsTo P Q := by
  intro n hP
  by_contra hQ
  have hunless : b.Unless P Q := fun k a hact hP => (step k a hact hP).imp_left And.right
  have hall : ∀ m, n ≤ m → P (b.state m) := fun m hm => (hunless.holds hP hm).resolve_right hQ
  obtain ⟨m, hm, a, ha, hact⟩ := takes n hall
  obtain ⟨hno, -⟩ | hgoal := step m a hact (hall m hm)
  · exact hno ha
  · exact hQ ⟨m + 1, Nat.le_succ_of_le hm, hgoal⟩

theorem WeaklyFair.leadsTo (hf : b.WeaklyFair F)
    (step : ∀ n a, b.act n = some a → P (b.state n) →
      ¬ F a ∧ P (b.state (n + 1)) ∨ Q (b.state (n + 1)))
    (enabled : ∀ {s}, P s → ∃ a, F a ∧ (M.step s a).isSome) : b.LeadsTo P Q :=
  leadsTo_of_takes step fun n hall => hf n fun m hm => enabled (hall m hm)

def StronglyFair (b : M.Behaviour) (F : A → Prop) : Prop :=
  ∀ n, (∀ m, n ≤ m → ∃ k, m ≤ k ∧ ∃ a, F a ∧ (M.step (b.state k) a).isSome) → ∃ m, n ≤ m ∧ b.Takes F m

theorem StronglyFair.leadsTo (hf : b.StronglyFair F)
    (step : ∀ n a, b.act n = some a → P (b.state n) →
      ¬ F a ∧ P (b.state (n + 1)) ∨ Q (b.state (n + 1)))
    (enabled : ∀ n, (∀ m, n ≤ m → P (b.state m)) →
      ∃ m, n ≤ m ∧ ∃ a, F a ∧ (M.step (b.state m) a).isSome) : b.LeadsTo P Q :=
  leadsTo_of_takes step fun n hall =>
    hf n fun m hm => enabled m fun k hk => hall k (Nat.le_trans hm hk)

section Settled

variable {s : S}

theorem stronglyFair_of_settled (hs : ∀ m, n ≤ m → b.state m = s)
    (stuck : ∀ a, F a → M.step s a = none) : b.StronglyFair F := by
  intro k hk
  obtain ⟨m, hm, a, ha, hstep⟩ := hk (max n k) (Nat.le_max_right n k)
  rw [hs m (Nat.le_trans (Nat.le_max_left n k) hm), stuck a ha] at hstep
  cases hstep

theorem StronglyFair.weaklyFair (hf : b.StronglyFair F) : b.WeaklyFair F :=
  fun n hn => hf n fun m hm => ⟨m, Nat.le_refl m, hn m hm⟩

end Settled

def drop (b : M.Behaviour) (n : Nat) : (Machine.mk (b.state n) M.step).Behaviour where
  state k := b.state (n + k)
  act k := b.act (n + k)
  start := rfl
  step k := b.step (n + k)
  idle k := b.idle (n + k)

theorem reachable (b : M.Behaviour) (n : Nat) : M.Reachable (b.state n) := by
  refine b.invariant ⟨[], rfl⟩ ?_ n
  rintro s a s' ⟨as, hr⟩ hs
  exact ⟨as ++ [a], hr.concat hs⟩

section Part

variable {T : Type w} {B : Type x} {N : Machine T B} {part : S → T} {acts : S → A → Option B}
variable {G : B → Prop}

/-- A part of the machine that steps as `N` does, or rests. -/
structure IsPart (M : Machine S A) (N : Machine T B) (part : S → T) (acts : S → A → Option B) :
    Prop where
  init : part M.init = N.init
  step : ∀ {s a s' c}, M.step s a = some s' → acts s a = some c →
    N.step (part s) c = some (part s')
  rest : ∀ {s a s'}, M.step s a = some s' → acts s a = none → part s' = part s

def ofPart (b : M.Behaviour) (h : IsPart M N part acts) : N.Behaviour where
  state n := part (b.state n)
  act n := (b.act n).bind (acts (b.state n))
  start := by rw [b.start, h.init]
  step n c hc := by
    obtain ⟨a, ha, hc⟩ := Option.bind_eq_some_iff.mp hc
    exact h.step (b.step n a ha) hc
  idle n hn := by
    cases ha : b.act n with
    | none => rw [b.idle n ha]
    | some a => exact h.rest (b.step n a ha) (by simpa [ha] using hn)

theorem ofPart_act {h : IsPart M N part acts} {c : B} :
    (b.ofPart h).act n = some c ↔ ∃ a, b.act n = some a ∧ acts (b.state n) a = some c :=
  Option.bind_eq_some_iff

theorem WeaklyFair.ofPart {h : IsPart M N part acts} (hF : b.WeaklyFair F)
    (enabled : ∀ {s c}, G c → (N.step (part s) c).isSome → ∃ a, F a ∧ (M.step s a).isSome)
    (taken : ∀ {s a s'}, F a → M.step s a = some s' → ∃ c, G c ∧ acts s a = some c) :
    (b.ofPart h).WeaklyFair G := by
  intro n hn
  obtain ⟨m, hm, a, ha, hact⟩ := hF n fun m hm => by
    obtain ⟨c, hc, hs⟩ := hn m hm
    exact enabled hc hs
  obtain ⟨c, hc, heq⟩ := taken ha (b.step m a hact)
  exact ⟨m, hm, c, hc, ofPart_act.mpr ⟨a, hact, heq⟩⟩

end Part

end Behaviour

end Machine
