import Mathlib.Data.List.Induction

/-! Partial labelled machines: runs, invariants over runs, and simulation. -/

universe u v w x

/-- An initial state and a partial step function.  `none` says that the action
is not enabled in that state. -/
structure Machine (S : Type u) (A : Type v) where
  init : S
  step : S → A → Option S

namespace Machine

variable {S : Type u} {A : Type v}

def exec (M : Machine S A) (s : S) (as : List A) : Option S := as.foldlM M.step s

def Run (M : Machine S A) (as : List A) (s : S) : Prop := M.exec M.init as = some s

def Reachable (M : Machine S A) (s : S) : Prop := ∃ as, M.Run as s

def GuardedFrom (M : Machine S A) (C : S → A → Prop) : S → List A → Prop
  | _, [] => True
  | s, a :: as => C s a ∧ ∀ t ∈ M.step s a, M.GuardedFrom C t as

def Guarded (M : Machine S A) (C : S → A → Prop) (as : List A) : Prop :=
  M.GuardedFrom C M.init as

instance decidableGuardedFrom (M : Machine S A) (C : S → A → Prop) [∀ s a, Decidable (C s a)] :
    ∀ s as, Decidable (M.GuardedFrom C s as)
  | _, [] => .isTrue trivial
  | s, a :: as =>
    have := fun t => decidableGuardedFrom M C t as
    inferInstanceAs (Decidable (C s a ∧ ∀ t ∈ M.step s a, M.GuardedFrom C t as))

instance (M : Machine S A) (C : S → A → Prop) [∀ s a, Decidable (C s a)] (as : List A) :
    Decidable (M.Guarded C as) := M.decidableGuardedFrom C M.init as

def Always (M : Machine S A) (P : S → Prop) (as : List A) : Prop :=
  ∀ pre s, pre <+: as → M.Run pre s → P s

variable {M : Machine S A}

@[simp] theorem exec_nil (s : S) : M.exec s [] = some s := rfl

@[simp] theorem exec_cons (s : S) (a : A) (as : List A) :
    M.exec s (a :: as) = (M.step s a).bind (M.exec · as) := by
  simp only [exec, List.foldlM_cons]
  rfl

theorem exec_append (s : S) (as bs : List A) :
    M.exec s (as ++ bs) = (M.exec s as).bind (M.exec · bs) := by
  simp only [exec, List.foldlM_append]
  rfl

theorem exec_concat (s : S) (as : List A) (a : A) :
    M.exec s (as ++ [a]) = (M.exec s as).bind (M.step · a) := by
  simp [exec_append]

theorem run_nil : M.Run [] M.init := rfl

theorem run_concat_iff {as : List A} {a : A} {s : S} :
    M.Run (as ++ [a]) s ↔ ∃ t, M.Run as t ∧ M.step t a = some s := by
  simp [Run, exec_concat, Option.bind_eq_some_iff]

theorem run_append_iff {as bs : List A} {s : S} :
    M.Run (as ++ bs) s ↔ ∃ t, M.Run as t ∧ M.exec t bs = some s := by
  simp [Run, exec_append, Option.bind_eq_some_iff]

theorem Run.concat {as : List A} {a : A} {s t : S} (h : M.Run as t)
    (hs : M.step t a = some s) : M.Run (as ++ [a]) s :=
  run_concat_iff.mpr ⟨t, h, hs⟩

theorem Run.unique {as : List A} {s t : S} (hs : M.Run as s) (ht : M.Run as t) : s = t :=
  Option.some.inj (hs.symm.trans ht)

theorem Run.induction {P : List A → S → Prop} (init : P [] M.init)
    (step : ∀ {as s a s'}, M.Run as s → P as s → M.step s a = some s' → P (as ++ [a]) s')
    {as : List A} {s : S} (h : M.Run as s) : P as s := by
  induction as using List.reverseRecOn generalizing s with
  | nil =>
    obtain rfl : M.init = s := Option.some.inj h
    exact init
  | append_singleton as a ih =>
    obtain ⟨t, ht, hstep⟩ := run_concat_iff.mp h
    exact step ht (ih ht) hstep

theorem Run.invariant {P : S → Prop} (init : P M.init)
    (step : ∀ {s a s'}, P s → M.step s a = some s' → P s')
    {as : List A} {s : S} (h : M.Run as s) : P s :=
  h.induction (P := fun _ s => P s) init (fun _ ih hs => step ih hs)

theorem Run.after {P : S → Prop} {pre : List A} {a : A}
    (here : ∀ {s t}, M.Run pre s → M.step s a = some t → P t)
    (step : ∀ {as s b t}, M.Run (pre ++ a :: as) s → P s → M.step s b = some t → P t)
    {post : List A} {s : S} (h : M.Run (pre ++ a :: post) s) : P s := by
  induction post using List.reverseRecOn generalizing s with
  | nil =>
    obtain ⟨t, hr, hs⟩ := run_concat_iff.mp h
    exact here hr hs
  | append_singleton post b ih =>
    have heq : pre ++ a :: (post ++ [b]) = (pre ++ a :: post) ++ [b] := by simp
    obtain ⟨t, hr, hs⟩ := run_concat_iff.mp (heq ▸ h)
    exact step hr (ih hr) hs

theorem guardedFrom_append {C : S → A → Prop} {s : S} {as bs : List A} :
    M.GuardedFrom C s (as ++ bs) ↔
      M.GuardedFrom C s as ∧ ∀ t ∈ M.exec s as, M.GuardedFrom C t bs := by
  induction as generalizing s with
  | nil => simp [GuardedFrom]
  | cons a as ih =>
    cases hs : M.step s a with
    | none => simp [GuardedFrom, hs]
    | some t => simp [GuardedFrom, hs, ih, and_assoc]

theorem Guarded.of_prefix {C : S → A → Prop} {pre as : List A} (hp : pre <+: as)
    (h : M.Guarded C as) : M.Guarded C pre := by
  obtain ⟨post, rfl⟩ := hp
  exact (guardedFrom_append.mp h).1

theorem Guarded.init {C : S → A → Prop} {as : List A} {a : A} (h : M.Guarded C (as ++ [a])) :
    M.Guarded C as :=
  h.of_prefix (List.prefix_append as [a])

theorem Guarded.last {C : S → A → Prop} {as : List A} {a : A} {s : S}
    (h : M.Guarded C (as ++ [a])) (hs : M.Run as s) : C s a :=
  ((guardedFrom_append.mp h).2 s hs).1

theorem Run.guarded {C : S → A → Prop} {as : List A} {s : S} (h : M.Run as s)
    (hC : ∀ {pre a t t'}, pre ++ [a] <+: as → M.Run pre t → M.step t a = some t' → C t a) :
    M.Guarded C as := by
  induction as using List.reverseRecOn generalizing s with
  | nil => trivial
  | append_singleton as a ih =>
    obtain ⟨t, hr, hs⟩ := run_concat_iff.mp h
    have hinit := ih hr fun hp => hC (hp.trans (List.prefix_append as [a]))
    refine guardedFrom_append.mpr ⟨hinit, fun u hu => ?_⟩
    obtain rfl := hr.unique hu
    exact ⟨hC List.prefix_rfl hr hs, fun _ _ => trivial⟩

theorem Guarded.imp {C D : S → A → Prop} {as : List A} (hC : M.Guarded C as)
    (h : ∀ {s a}, C s a → D s a) : M.Guarded D as := by
  unfold Guarded at *
  generalize M.init = s at *
  induction as generalizing s with
  | nil => trivial
  | cons a as ih => exact ⟨h hC.1, fun t ht => ih t (hC.2 t ht)⟩

theorem Guarded.and {C D : S → A → Prop} {as : List A} (hC : M.Guarded C as)
    (hD : M.Guarded D as) : M.Guarded (fun s a => C s a ∧ D s a) as := by
  unfold Guarded at *
  generalize M.init = s at *
  induction as generalizing s with
  | nil => trivial
  | cons a as ih =>
    exact ⟨⟨hC.1, hD.1⟩, fun t ht => ih t (hC.2 t ht) (hD.2 t ht)⟩

theorem Run.invariant_of_guarded {C : S → A → Prop} {P : S → Prop} (init : P M.init)
    (step : ∀ {s a s'}, C s a → P s → M.step s a = some s' → P s')
    {as : List A} {s : S} (h : M.Run as s) (hC : M.Guarded C as) : P s := by
  refine h.induction (P := fun as s => M.Guarded C as → P s) (fun _ => init) ?_ hC
  intro as s a s' hrun ih hs hC
  exact step (hC.last hrun) (ih hC.init) hs

theorem Guarded.always {C : S → A → Prop} {P : S → Prop} {as : List A} (hC : M.Guarded C as)
    (init : P M.init) (step : ∀ {s a s'}, C s a → P s → M.step s a = some s' → P s') :
    M.Always P as :=
  fun _ _ hp hr => hr.invariant_of_guarded init step (hC.of_prefix hp)

theorem always_of_invariant {P : S → Prop} (init : P M.init)
    (step : ∀ {s a s'}, P s → M.step s a = some s' → P s') (as : List A) : M.Always P as :=
  fun _ _ _ hr => hr.invariant init step

structure Simulates {T : Type w} {B : Type x} (M : Machine S A) (N : Machine T B)
    (R : S → T → Prop) : Prop where
  init : R M.init N.init
  step : ∀ {s a s' t}, R s t → M.step s a = some s' →
    ∃ bs t', N.exec t bs = some t' ∧ R s' t'

theorem Simulates.run {T : Type w} {B : Type x} {N : Machine T B} {R : S → T → Prop}
    (h : Simulates M N R) {as : List A} {s : S} (hs : M.Run as s) :
    ∃ bs t, N.Run bs t ∧ R s t := by
  refine hs.induction (P := fun _ s => ∃ bs t, N.Run bs t ∧ R s t) ⟨[], _, rfl, h.init⟩ ?_
  rintro _ s a s' _ ⟨bs, t, hrun, hR⟩ hstep
  obtain ⟨cs, t', hexec, hR'⟩ := h.step hR hstep
  exact ⟨bs ++ cs, t', run_append_iff.mpr ⟨t, hrun, hexec⟩, hR'⟩

theorem Simulates.reachable {T : Type w} {B : Type x} {N : Machine T B} {part : S → T}
    (h : Simulates M N fun s t => part s = t) {as : List A} {s : S} (hs : M.Run as s) :
    N.Reachable (part s) := by
  obtain ⟨bs, t, hrun, rfl⟩ := h.run hs
  exact ⟨bs, hrun⟩

end Machine
