import Mathlib.Tactic.MkIffOfInductiveProp
import Serverlessd.Runtime.Worker.Owners

namespace Serverlessd

namespace InitAnswers

variable {a : InitAnswers}

def Loaded (a : InitAnswers) : Prop := a.intrinsics = .built ∧ a.globals = none

def Compiled (a : InitAnswers) : Prop := a.Loaded ∧ a.sourceFits = true ∧ a.compiled = none

def Evaluated (a : InitAnswers) : Prop := a.Compiled ∧ a.instantiated = none ∧ a.evaluated = none

def Fulfilled (a : InitAnswers) : Prop := a.Evaluated ∧ a.promise = .fulfilled

def Exported (a : InitAnswers) : Prop := a.Fulfilled ∧ a.defaultExport = .ok true

/-- As far as the initialisation gets: the intrinsics are built, the source is not too long
for a string, no step throws a primitive value, and the module's promise is settled, and
not rejected with a primitive value. -/
@[mk_iff]
structure Tame (a : InitAnswers) : Prop where
  intrinsics : a.intrinsics = .built ∨ ∃ thrown, a.intrinsics = .failed thrown ∧ thrown ≠ .primitive
  globals : a.intrinsics = .built → a.globals ≠ some .primitive
  source : a.Loaded → a.sourceFits = true
  compiled : a.Loaded → a.compiled ≠ some .primitive
  instantiated : a.Compiled → a.instantiated ≠ some .primitive
  evaluated : a.Compiled → a.instantiated = none → a.evaluated ≠ some .primitive
  promise : a.Evaluated → a.promise ≠ .pending ∧ a.promise ≠ .rejected .primitive
  defaultExport : a.Fulfilled → a.defaultExport ≠ .error .primitive
  fetchMember : a.Exported → a.fetchMember ≠ .error .primitive

def Returns (a : InitAnswers) : Prop :=
  (∃ fetch, (createTaskInit a).1 = .loop fetch) ∨ ∃ err, (createTaskInit a).1 = .error err

theorem failed_returns_iff {err : WorkerError} {thrown : Thrown} :
    ((∃ fetch, InitOutcome.failed err thrown = .loop fetch) ∨
      ∃ e, InitOutcome.failed err thrown = .error e) ↔ thrown ≠ .primitive := by
  cases thrown <;> simp [InitOutcome.failed]

theorem returns_iff_tame : a.Returns ↔ a.Tame := by
  rw [Returns, tame_iff]
  fun_cases createTaskInit a
  all_goals simp only [failed_returns_iff]
  all_goals simp [*, Loaded, Compiled, Evaluated, Fulfilled, Exported]

structure Total (task : WorkerTask) (a : InitAnswers) : Prop where
  returns : a.Returns
  closed : ∀ as s, (Owned.machine task).Run as s → .init a ∈ as → (∀ b ∈ as, b ≠ .cancel) →
    s.owners.closings = if s.worker.rxOpen then 0 else 1

theorem total_iff_tame (task : WorkerTask) (a : InitAnswers) : a.Total task ↔ a.Tame :=
  ⟨fun h => returns_iff_tame.mp h.returns, fun h => ⟨returns_iff_tame.mpr h,
    fun _ _ hr hi hc => Owned.closings_of_run hr hi hc⟩⟩

theorem init_not_total :
    ¬ Total ⟨"await fetch(url)", 0⟩ { promise := .pending } ∧
    ¬ Total ⟨"throw null", 0⟩ { promise := .rejected .primitive } ∧
    (createTaskInit { promise := .pending }).1 = .undefinedBehaviour ∧
    (createTaskInit { promise := .rejected .primitive }).1 = .panic := by
  refine ⟨fun h => ?_, fun h => ?_, rfl, rfl⟩
  · obtain ⟨fetch, he⟩ | ⟨err, he⟩ := h.returns <;> cases he
  · obtain ⟨fetch, he⟩ | ⟨err, he⟩ := h.returns <;> cases he

end InitAnswers

end Serverlessd
