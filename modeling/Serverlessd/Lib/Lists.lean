import Mathlib.Algebra.GroupWithZero.Nat
import Mathlib.Algebra.Order.BigOperators.Group.List
import Mathlib.Algebra.Order.Group.Nat
import Mathlib.Data.Finset.Card

universe u v

namespace List

variable {α : Type u} {l pre post : List α} {x y : α} {i j : Nat}

theorem getElem?_concat_eq_some :
    (l ++ [y])[i]? = some x ↔ l[i]? = some x ∨ i = l.length ∧ x = y := by
  grind

theorem getElem?_set_cases (h : (l.set i x)[j]? = some y) :
    j = i ∧ y = x ∨ j ≠ i ∧ l[j]? = some y := by
  rw [getElem?_set] at h
  split at h
  · exact .inl ⟨Eq.symm ‹_›, (Option.some.inj (Option.ite_none_right_eq_some.mp h).2).symm⟩
  · exact .inr ⟨Ne.symm ‹_›, h⟩

theorem concat_eq_append_cons (h : l ++ [x] = pre ++ y :: post) :
    (∃ post', post = post' ++ [x] ∧ l = pre ++ y :: post') ∨ post = [] ∧ pre = l ∧ y = x := by
  obtain rfl | ⟨post', z, rfl⟩ : post = [] ∨ ∃ post' z, post = post' ++ [z] := by
    simpa using eq_nil_or_concat post
  · obtain ⟨rfl, he⟩ := append_inj' h rfl
    exact .inr ⟨rfl, rfl, (cons.inj he).1.symm⟩
  · rw [← cons_append, ← append_assoc] at h
    obtain ⟨rfl, he⟩ := append_inj' h rfl
    exact .inl ⟨post', by rw [(cons.inj he).1], rfl⟩

theorem sum_map_set {f : α → Nat} (h : l[i]? = some y) :
    ((l.set i x).map f).sum + f y = (l.map f).sum + f x := by
  induction l generalizing i with
  | nil => simp at h
  | cons z l ih =>
    cases i with
    | zero =>
      obtain rfl : z = y := by simpa using h
      simp only [set_cons_zero, map_cons, sum_cons]
      omega
    | succ i =>
      have hl := ih (by simpa using h)
      simp only [set_cons_succ, map_cons, sum_cons]
      omega

theorem countP_le_card {β : Type v} [DecidableEq β] {p : α → Bool} {f : Nat → β} {t : Finset β}
    (hf : ∀ i x, l[i]? = some x → p x = true → f i ∈ t)
    (hinj : ∀ i j x y, l[i]? = some x → l[j]? = some y → p x = true → p y = true → f i = f j → i = j) :
    l.countP p ≤ t.card := by
  induction l using List.reverseRecOn generalizing t with
  | nil => simp
  | append_singleton l z ih =>
    have hold : ∀ {i x}, l[i]? = some x → (l ++ [z])[i]? = some x :=
      fun h => getElem?_concat_eq_some.mpr (.inl h)
    have hlast : (l ++ [z])[l.length]? = some z := getElem?_concat_length
    have hinj' := fun i j x y hi hj => hinj i j x y (hold hi) (hold hj)
    rw [countP_append, countP_singleton]
    split
    · rename_i hz
      have hmem := hf _ _ hlast hz
      have hle := ih (t := t.erase (f l.length)) (fun i x hi hx => ?_) hinj'
      · rw [Finset.card_erase_of_mem hmem] at hle
        have := Finset.card_pos.mpr ⟨_, hmem⟩
        omega
      · refine Finset.mem_erase.mpr ⟨fun he => ?_, hf i x (hold hi) hx⟩
        have hlt := (getElem?_eq_some_iff.mp hi).1
        exact absurd (hinj _ _ _ _ (hold hi) hlast hx hz he) (Nat.ne_of_lt hlt)
    · exact ih (fun i x hi => hf i x (hold hi)) hinj'

end List
