import Mathlib.Data.List.Nodup
import Serverlessd.Lib.Machine
import Serverlessd.Runtime.Pod.Core

universe u

namespace Serverlessd

namespace Pod

variable {Handle : Type u}

inductive Op (Handle : Type u)
  | create (worker : Handle)
  | remove (id : Nat)
  deriving DecidableEq

/-- A worker is created only where `has_vacancy` is true; there is no step after undefined
behaviour. -/
def step (p : Pod Handle) : Op Handle → Option (Pod Handle)
  | .create worker => if p.hasVacancy then (p.createWorker worker).map Prod.fst else none
  | .remove id => (p.removeWorker id).map Prod.fst

def allocator (n : Nat) : Machine (Pod Handle) (Op Handle) := ⟨start n, step⟩

def occupied (p : Pod Handle) : Nat := p.workers.countP Option.isSome

structure Wf (n : Nat) (p : Pod Handle) : Prop where
  slot : ∀ id < p.workers.length, (p.getWorker id).isSome ↔ id ∉ p.vacancies
  nodup : p.vacancies.Nodup
  range : ∀ id ∈ p.vacancies, id < p.workers.length
  bound : p.occupied ≤ n
  vacancy : p.hasVacancy = true ↔ p.occupied < n

def Correct (p : Pod Handle) : Op Handle → Prop
  | .create worker =>
    p.hasVacancy = true → ∃ q id, p.createWorker worker = some (q, id) ∧
      p.getWorker id = none ∧ q.getWorker id = some worker ∧
      ∀ other, other ≠ id → q.workers[other]? = p.workers[other]?
  | .remove id =>
    match p.getWorker id with
    | some _ => ∃ q, p.removeWorker id = some (q, true) ∧ q.getWorker id = none ∧
        id ∈ q.vacancies ∧ ∀ other, other ≠ id → q.workers[other]? = p.workers[other]?
    | none => p.removeWorker id = some (p, false)

structure Allocates (n : Nat) (ops : List (Op Handle)) : Prop where
  wf : (allocator n).Always (Wf n) ops
  correct : (allocator n).Guarded Correct ops

/-- No slot is reused, and no empty slot is emptied. -/
def Careful (p : Pod Handle) : Op Handle → Prop
  | .create _ => p.vacancies = []
  | .remove id => p.workers[id]? ≠ some none

section Operations

variable {p q : Pod Handle} {worker : Handle} {id n : Nat}

theorem getWorker_eq_some : p.getWorker id = some worker ↔ p.workers[id]? = some (some worker) := by
  simp [getWorker, Option.join_eq_some_iff]

theorem getWorker_push (slot : Option Handle) (other : Nat) :
    (p.push slot).getWorker other = if other = p.workers.length then slot else p.getWorker other := by
  simp only [getWorker, push, List.getElem?_append]
  rcases Nat.lt_trichotomy other p.workers.length with h | h | h
  · simp [h, Nat.ne_of_lt h]
  · simp [h]
  · have : other - p.workers.length ≠ 0 := by omega
    simp [Nat.not_lt_of_gt h, Nat.ne_of_gt h, this]

theorem getElem?_push (slot : Option Handle) {other : Nat} (h : other ≠ p.workers.length) :
    (p.push slot).workers[other]? = p.workers[other]? := by
  obtain h | h := Nat.lt_or_gt_of_ne h
  · simp [push, List.getElem?_append_left h]
  · rw [List.getElem?_eq_none (by simp [push]; omega), List.getElem?_eq_none (Nat.le_of_lt h)]

def emptied (p : Pod Handle) (id : Nat) : Pod Handle :=
  { p with workers := p.workers.set id none, vacancies := p.vacancies ++ [id] }

theorem getWorker_emptied (other : Nat) :
    (p.emptied id).getWorker other = if other = id then none else p.getWorker other := by
  simp only [getWorker, emptied, List.getElem?_set]
  by_cases h : id = other
  · subst h
    simp only [if_true]
    split <;> rfl
  · simp [h, Ne.symm h]

theorem removeWorker_of_some (h : p.getWorker id = some worker) :
    p.removeWorker id = some (p.emptied id, true) := by
  simp [removeWorker, emptied, getWorker_eq_some.mp h]

theorem removeWorker_of_none (h : p.getWorker id = none) (hc : p.workers[id]? ≠ some none) :
    p.removeWorker id = some (p, false) := by
  cases hw : p.workers[id]? with
  | none => simp [removeWorker, hw]
  | some slot =>
    cases slot with
    | none => exact absurd hw hc
    | some worker => simp [getWorker, hw] at h

theorem removeWorker_of_empty (h : p.workers[id]? = some none) : p.removeWorker id = none := by
  simp [removeWorker, h]

theorem createWorker_of_vacancy {rest : List Nat} (h : p.vacancies = rest ++ [id])
    (hid : id < p.workers.length) :
    p.createWorker worker = some ({ p.push none with
      workers := p.workers.set id (some worker) ++ [none], vacancies := rest }, id) := by
  simp [createWorker, getNextWorkerId, putWorker, push, h, Nat.lt_succ_of_lt hid,
    List.set_append_left _ _ hid]

end Operations

section Allocation

variable {p q : Pod Handle} {op : Op Handle} {n : Nat} {ops : List (Op Handle)}

structure Inv (n : Nat) (p : Pod Handle) : Prop where
  slot : ∀ id < p.workers.length, (p.getWorker id).isSome ↔ id ∉ p.vacancies
  nodup : p.vacancies.Nodup
  range : ∀ id ∈ p.vacancies, id < p.workers.length
  capacity : p.capacity = n
  length : p.workers.length ≤ n
  count : p.occupied + p.vacancies.length = p.workers.length

theorem Inv.hasVacancy_iff (h : p.Inv n) : p.hasVacancy = true ↔ p.occupied < n := by
  have hcount := h.count
  have hlength := h.length
  rw [hasVacancy, h.capacity]
  cases hv : p.vacancies with
  | nil => simp_all
  | cons id rest => simp_all; omega

theorem Inv.wf (h : p.Inv n) : p.Wf n where
  slot := h.slot
  nodup := h.nodup
  range := h.range
  bound := by have := h.count; have := h.length; omega
  vacancy := h.hasVacancy_iff

theorem inv_start : (start n : Pod Handle).Inv n := by
  constructor <;> simp [start, occupied]

theorem Inv.create (h : p.Inv n) (hv : p.hasVacancy = true) (hc : p.vacancies = [])
    (worker : Handle) : (p.push (some worker)).Inv n := by
  have hroom : p.workers.length < n := by
    rwa [hasVacancy_of_no_vacancies hc, h.capacity] at hv
  have hcount := h.count
  refine ⟨fun id hid => ?_, h.nodup, by simp [push, hc], ?_, ?_, ?_⟩
  · rw [getWorker_push]
    split
    · simp [push, hc]
    · exact h.slot id (by simp only [push, List.length_append, List.length_singleton] at hid; omega)
  · exact (push_capacity (h.capacity ▸ hroom) _).trans h.capacity
  · simpa [push] using Nat.succ_le_of_lt hroom
  · simp only [occupied, push, List.countP_append, List.length_append] at hcount ⊢
    simp [hc] at hcount ⊢
    exact hcount

theorem Inv.remove (h : p.Inv n) {id : Nat} {worker : Handle} (hw : p.getWorker id = some worker) :
    (p.emptied id).Inv n := by
  obtain ⟨hid, hget⟩ := List.getElem?_eq_some_iff.mp (getWorker_eq_some.mp hw)
  have hnot : id ∉ p.vacancies := (h.slot id hid).mp (by simp [hw])
  refine ⟨fun other ho => ?_, ?_, ?_, h.capacity, by simpa [emptied] using h.length, ?_⟩
  · rw [getWorker_emptied]
    by_cases hne : other = id
    · simp [emptied, hne]
    · simpa [emptied, hne] using h.slot other (by simpa [emptied] using ho)
  · exact List.nodup_append.mpr ⟨h.nodup, List.nodup_singleton id, by
      rintro a ha b hb rfl
      exact hnot (List.mem_singleton.mp hb ▸ ha)⟩
  · simp only [emptied, List.mem_append, List.mem_singleton, List.length_set]
    rintro other (ho | rfl)
    · exact h.range other ho
    · exact hid
  · have hcount := h.count
    have hpos : 0 < p.workers.countP Option.isSome :=
      List.countP_pos_iff.mpr ⟨_, List.getElem_mem hid, by simp [hget]⟩
    simp only [occupied, emptied, List.countP_set, hid, hget, List.length_append,
      List.length_set] at hcount ⊢
    simp
    omega

theorem Inv.step (h : p.Inv n) (hc : p.Careful op) (hs : p.step op = some q) : q.Inv n := by
  cases op with
  | create worker =>
    obtain ⟨hv, hs⟩ := Option.ite_none_right_eq_some.mp hs
    rw [createWorker_of_no_vacancies hc] at hs
    cases hs
    exact h.create hv hc worker
  | remove id =>
    cases hw : p.getWorker id with
    | none =>
      rw [Pod.step, removeWorker_of_none hw hc] at hs
      cases hs
      exact h
    | some worker =>
      rw [Pod.step, removeWorker_of_some hw] at hs
      cases hs
      exact h.remove hw

theorem correct_of_careful (hc : p.Careful op) : p.Correct op := by
  cases op with
  | create worker =>
    intro _
    refine ⟨_, _, createWorker_of_no_vacancies hc, by simp [getWorker], ?_, ?_⟩
    · rw [getWorker_push, if_pos rfl]
    · exact fun other ho => getElem?_push _ ho
  | remove id =>
    simp only [Correct]
    split
    · rename_i worker hw
      refine ⟨_, removeWorker_of_some hw, ?_, by simp [emptied], fun other ho => ?_⟩
      · rw [getWorker_emptied, if_pos rfl]
      · simp [emptied, List.getElem?_set_ne (Ne.symm ho)]
    · exact removeWorker_of_none ‹_› hc

theorem Inv.careful (h : p.Inv n) (hc : p.Correct op) (hwf : ∀ q, p.step op = some q → q.Wf n) :
    p.Careful op := by
  cases op with
  | create worker =>
    rcases List.eq_nil_or_concat p.vacancies with hv | ⟨rest, id, hv⟩
    · exact hv
    · rw [List.concat_eq_append] at hv
      have hid := h.range id (by simp [hv])
      have hvac : p.hasVacancy = true := by simp [hasVacancy, hv]
      have hq := hwf _ (by rw [Pod.step, if_pos hvac, createWorker_of_vacancy hv hid]; rfl)
      have hslot := hq.slot p.workers.length (by simp)
      have hmem : p.workers.length ∈ rest := by
        have hempty : (p.workers.set id (some worker) ++ [none])[p.workers.length]? = some none := by
          rw [List.getElem?_append_right (by simp)]
          simp
        simpa [getWorker, hempty] using hslot
      exact absurd (h.range _ (by simp [hv, hmem])) (Nat.lt_irrefl _)
  | remove id =>
    intro hempty
    have hw : p.getWorker id = none := by simp [getWorker, hempty]
    simp only [Correct, hw, removeWorker_of_empty hempty] at hc
    cases hc

theorem inv_of_run (hr : (allocator n).Run ops p) (hc : (allocator n).Guarded Careful ops) :
    p.Inv n :=
  hr.invariant_of_guarded inv_start (fun hc hi hs => hi.step hc hs) hc

theorem always_careful (h : Allocates n ops) : (allocator n).Guarded Careful ops := by
  induction ops using List.reverseRecOn with
  | nil => trivial
  | append_singleton ops op ih =>
    have hc := ih ⟨fun pre p hp => h.wf pre p (hp.trans (List.prefix_append _ _)), h.correct.init⟩
    refine Machine.guardedFrom_append.mpr ⟨hc, fun p hr => ⟨?_, fun _ _ => trivial⟩⟩
    exact (inv_of_run hr hc).careful (h.correct.last hr) fun q hs =>
      h.wf _ q List.prefix_rfl (Machine.Run.concat hr hs)

/-- The free list is kept, and every operation does what it should, all along a sequence of
operations exactly when none of them reuses a slot or removes from an empty one. -/
theorem allocates_iff (n : Nat) (ops : List (Op Handle)) :
    Allocates n ops ↔ (allocator n).Guarded Careful ops := by
  refine ⟨always_careful, fun hc => ⟨fun pre p hp hr => ?_, ?_⟩⟩
  · exact (inv_of_run hr (hc.of_prefix hp)).wf
  · exact hc.imp fun hcareful => correct_of_careful hcareful

theorem slot_leaked_or_unwrapped :
    ¬ Allocates 1 [.create 0, .remove 0, .create 1] ∧
    ¬ Allocates 1 [.create 0, .remove 0, .remove 0] := by
  constructor
  · intro h
    have hslot := (h.wf _ _ List.prefix_rfl rfl).slot 1 (by decide)
    exact absurd hslot (by decide)
  · intro h
    have hlast := ((h.correct.2 _ rfl).2 _ rfl).1
    cases hlast

end Allocation

end Pod

end Serverlessd
