import Mathlib.Logic.Relation
import Mathlib.Order.WellFounded

/-! Tasks that wait for each other.  A rank that decreases from a task to those it waits for
excludes a circular wait, and if each task that is waited for is enabled or waits itself,
the way from a task to those it waits for comes to an enabled one. -/

universe u

namespace WaitsFor

variable {Task : Type u} {R : Task → Task → Prop} {Enabled : Task → Prop} {rank : Task → Nat}
variable {t v : Task}

/-- No one waits for itself, and no way of waiting goes on forever. -/
structure Founded (R : Task → Task → Prop) : Prop where
  acyclic : ∀ t, ¬ Relation.TransGen R t t
  ends : WellFounded fun u t => R t u

theorem rank_lt_of_transGen (hR : ∀ t u, R t u → rank u < rank t)
    (h : Relation.TransGen R t v) : rank v < rank t := by
  induction h with
  | single h => exact hR _ _ h
  | tail _ h ih => exact (hR _ _ h).trans ih

theorem founded_of_rank (hR : ∀ t u, R t u → rank u < rank t) : Founded R where
  acyclic := fun _ h => Nat.lt_irrefl _ (rank_lt_of_transGen hR h)
  ends := Subrelation.wf (hR _ _) (measure rank).wf

theorem Founded.exists_enabled (h : Founded R) (next : ∀ t u, R t u → Enabled u ∨ ∃ v, R u v)
    (ht : R t v) : ∃ u, Relation.TransGen R t u ∧ Enabled u := by
  induction v using h.ends.induction generalizing t with
  | _ v ih =>
    obtain hv | ⟨u, hu⟩ := next t v ht
    · exact ⟨v, .single ht, hv⟩
    · obtain ⟨x, hx, henabled⟩ := ih u hu hu
      exact ⟨x, .head ht hx, henabled⟩

end WaitsFor
