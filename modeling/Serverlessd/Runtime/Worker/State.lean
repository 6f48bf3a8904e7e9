import Mathlib.Data.List.ReduceOption
import Mathlib.Data.List.Nodup

universe u

namespace Serverlessd

/-- The `repliers` of a `WorkerState`, together with the leaked boxes its pointers
lead to.  A pointer is the index of its box, and no box is ever freed. -/
structure Repliers (R : Type u) where
  table : List (Option Nat) := []
  boxes : List (Option R) := []
  deriving DecidableEq

namespace Repliers

variable {R : Type u}

def read (r : Repliers R) (ptr : Nat) : Option R := r.boxes[ptr]?.join

def leak (r : Repliers R) (reply : R) : Repliers R × Nat :=
  ({ r with boxes := r.boxes ++ [some reply] }, r.boxes.length)

def cleanupDeadRepliers (r : Repliers R) : Repliers R :=
  { r with table := r.table.map (·.filter fun ptr => (r.read ptr).isSome) }

def getNextReplierIdx (r : Repliers R) : Repliers R × Nat :=
  let r := r.cleanupDeadRepliers
  match r.table.findIdx? Option.isNone with
  | some idx => (r, idx)
  | none => ({ r with table := r.table ++ [none] }, r.table.length)

def addReplier (r : Repliers R) (idx ptr : Nat) : Repliers R :=
  { r with table := r.table.set idx (some ptr) }

def register (r : Repliers R) (reply : R) : Repliers R × Nat :=
  let leaked := r.leak reply
  let next := leaked.1.getNextReplierIdx
  (next.1.addReplier next.2 leaked.2, leaked.2)

def take (r : Repliers R) (ptr : Nat) : Repliers R × Option R :=
  ({ r with boxes := r.boxes.set ptr none }, r.read ptr)

def drain (boxes : List (Option R)) : List (Option Nat) → List (Option R) × List R
  | [] => (boxes, [])
  | none :: table => drain boxes table
  | some ptr :: table =>
    match boxes[ptr]?.join with
    | none => drain boxes table
    | some reply =>
      let rest := drain (boxes.set ptr none) table
      (rest.1, reply :: rest.2)

def drop (r : Repliers R) : Repliers R × List R :=
  let drained := drain r.boxes r.table
  ({ table := [], boxes := drained.1 }, drained.2)

def Live (r : Repliers R) (ptr : Nat) : Prop := (r.read ptr).isSome

structure Wf (r : Repliers R) : Prop where
  live : ∀ ptr, r.Live ptr → some ptr ∈ r.table
  nodup : r.table.reduceOption.Nodup
  valid : ∀ ptr, some ptr ∈ r.table → ptr < r.boxes.length

section Read

@[simp] theorem read_leak (r : Repliers R) (reply : R) (ptr : Nat) :
    (r.leak reply).1.read ptr = if ptr = r.boxes.length then some reply else r.read ptr := by
  simp only [leak, read, List.getElem?_append]
  rcases Nat.lt_trichotomy ptr r.boxes.length with h | h | h
  · simp [h, Nat.ne_of_lt h]
  · simp [h]
  · have : ptr - r.boxes.length ≠ 0 := by omega
    simp [Nat.not_lt_of_gt h, Nat.ne_of_gt h, this]

@[simp] theorem read_cleanup (r : Repliers R) (ptr : Nat) :
    r.cleanupDeadRepliers.read ptr = r.read ptr := rfl

@[simp] theorem read_addReplier (r : Repliers R) (idx ptr q : Nat) :
    (r.addReplier idx ptr).read q = r.read q := rfl

theorem getNextReplierIdx_boxes (r : Repliers R) : r.getNextReplierIdx.1.boxes = r.boxes := by
  simp only [getNextReplierIdx]
  split <;> rfl

@[simp] theorem read_getNextReplierIdx (r : Repliers R) (ptr : Nat) :
    r.getNextReplierIdx.1.read ptr = r.read ptr := by
  simp [read, getNextReplierIdx_boxes]

theorem read_take (r : Repliers R) (ptr q : Nat) :
    (r.take ptr).1.read q = if q = ptr then none else r.read q := by
  simp only [take, read, List.getElem?_set]
  by_cases h : ptr = q
  · subst h
    simp only [if_true]
    split <;> rfl
  · simp [h, Ne.symm h]

theorem read_of_le {r : Repliers R} {ptr : Nat} (h : r.boxes.length ≤ ptr) : r.read ptr = none := by
  simp [read, List.getElem?_eq_none h]

end Read

section Table

variable {table : List (Option Nat)} {idx ptr q : Nat}

theorem some_mem_set_of_empty (h : table[idx]? = some none) :
    some q ∈ table.set idx (some ptr) ↔ q = ptr ∨ some q ∈ table := by
  induction table generalizing idx with
  | nil => simp at h
  | cons slot table ih =>
    cases idx with
    | zero =>
      obtain rfl : slot = none := by simpa using h
      simp
    | succ idx =>
      simp only [List.set_cons_succ, List.mem_cons, ih (by simpa using h)]
      grind

theorem reduceOption_set_of_empty (h : table[idx]? = some none) :
    (table.set idx (some ptr)).reduceOption.Perm (ptr :: table.reduceOption) := by
  induction table generalizing idx with
  | nil => simp at h
  | cons slot table ih =>
    cases idx with
    | zero =>
      obtain rfl : slot = none := by simpa using h
      simp
    | succ idx =>
      have ih := @ih idx (by simpa using h)
      cases slot with
      | none => simpa using ih
      | some p => simpa using (ih.cons p).trans (.swap ptr p _)

end Table

section Wf

variable {r : Repliers R} {ptr : Nat}

theorem wf_empty : ({} : Repliers R).Wf := ⟨by simp [Live, read], by simp, by simp⟩

theorem mem_cleanup : some ptr ∈ r.cleanupDeadRepliers.table ↔ some ptr ∈ r.table ∧ r.Live ptr := by
  simp only [cleanupDeadRepliers, List.mem_map]
  constructor
  · rintro ⟨slot, hs, hf⟩
    obtain ⟨rfl, hl⟩ := Option.filter_eq_some_iff.mp hf
    exact ⟨hs, hl⟩
  · rintro ⟨hs, hl⟩
    exact ⟨some ptr, hs, Option.filter_eq_some_iff.mpr ⟨rfl, hl⟩⟩

theorem nodup_cleanup (h : r.table.reduceOption.Nodup) :
    r.cleanupDeadRepliers.table.reduceOption.Nodup := by
  have : r.cleanupDeadRepliers.table.reduceOption =
      r.table.reduceOption.filter fun ptr => (r.read ptr).isSome := by
    simp only [cleanupDeadRepliers, List.reduceOption, List.filterMap_map, List.filter_filterMap]
    rfl
  rw [this]
  exact h.filter _

theorem Wf.cleanup (h : r.Wf) : r.cleanupDeadRepliers.Wf where
  live := fun ptr hl => mem_cleanup.mpr ⟨h.live ptr hl, hl⟩
  nodup := nodup_cleanup h.nodup
  valid := fun ptr hp => h.valid ptr (mem_cleanup.mp hp).1

theorem getNextReplierIdx_empty (r : Repliers R) :
    r.getNextReplierIdx.1.table[r.getNextReplierIdx.2]? = some none := by
  simp only [getNextReplierIdx]
  split
  · rename_i idx hidx
    obtain ⟨hlt, hnone, -⟩ := List.findIdx?_eq_some_iff_getElem.mp hidx
    rw [List.getElem?_eq_getElem hlt, Option.isNone_iff_eq_none.mp hnone]
  · simp

theorem mem_getNextReplierIdx :
    some ptr ∈ r.getNextReplierIdx.1.table ↔ some ptr ∈ r.table ∧ r.Live ptr := by
  rw [← mem_cleanup]
  simp only [getNextReplierIdx]
  split <;> simp

theorem nodup_getNextReplierIdx (h : r.table.reduceOption.Nodup) :
    r.getNextReplierIdx.1.table.reduceOption.Nodup := by
  simp only [getNextReplierIdx]
  split
  · exact nodup_cleanup h
  · simpa [List.reduceOption_append] using nodup_cleanup h

@[simp] theorem register_snd (reply : R) : (r.register reply).2 = r.boxes.length := rfl

theorem register_boxes (reply : R) : (r.register reply).1.boxes = r.boxes ++ [some reply] := by
  simp [register, addReplier, getNextReplierIdx_boxes, leak]

@[simp] theorem read_register (reply : R) :
    (r.register reply).1.read ptr = if ptr = r.boxes.length then some reply else r.read ptr := by
  simp [register]

theorem mem_register (reply : R) :
    some ptr ∈ (r.register reply).1.table ↔
      ptr = r.boxes.length ∨ some ptr ∈ r.table ∧ (r.leak reply).1.Live ptr := by
  simp only [register, addReplier]
  rw [some_mem_set_of_empty (getNextReplierIdx_empty _), mem_getNextReplierIdx]
  rfl

theorem Wf.register (h : r.Wf) (reply : R) : (r.register reply).1.Wf where
  live := by
    intro ptr hl
    rw [mem_register]
    by_cases hp : ptr = r.boxes.length
    · exact .inl hp
    · simp only [Live, read_register, if_neg hp] at hl
      exact .inr ⟨h.live ptr hl, by simpa [Live, hp] using hl⟩
  nodup := by
    refine (reduceOption_set_of_empty (getNextReplierIdx_empty _)).nodup_iff.mpr ?_
    refine List.nodup_cons.mpr ⟨?_, nodup_getNextReplierIdx h.nodup⟩
    rw [List.reduceOption_mem_iff, mem_getNextReplierIdx]
    exact fun hm => Nat.lt_irrefl _ (h.valid _ hm.1)
  valid := by
    intro ptr hp
    rw [register_boxes, List.length_append]
    obtain rfl | ⟨hm, -⟩ := (mem_register reply).mp hp
    · simp
    · exact Nat.lt_add_right _ (h.valid ptr hm)

theorem Wf.take (h : r.Wf) (q : Nat) : (r.take q).1.Wf where
  live := by
    intro ptr hl
    simp only [Live, read_take] at hl
    split at hl
    · cases hl
    · exact h.live ptr hl
  nodup := h.nodup
  valid := fun ptr hp => by simpa [Repliers.take] using h.valid ptr hp

end Wf

section Held

variable [DecidableEq R] {r : Repliers R} {x : R}

def held (r : Repliers R) (x : R) : Nat := r.boxes.count (some x)

@[simp] theorem held_cleanup : r.cleanupDeadRepliers.held x = r.held x := rfl

theorem held_register (reply : R) :
    (r.register reply).1.held x = r.held x + if reply = x then 1 else 0 := by
  simp [held, register_boxes, List.count_append, List.count_cons]

theorem held_take (ptr : Nat) :
    (r.take ptr).1.held x + (if r.read ptr = some x then 1 else 0) = r.held x := by
  by_cases h : ptr < r.boxes.length
  · have hread : r.read ptr = r.boxes[ptr] := by simp [read, h]
    have hpos := List.count_pos_iff.mpr (List.getElem_mem h)
    simp only [held, Repliers.take, List.count_set h, hread]
    by_cases hx : r.boxes[ptr] = some x
    · rw [hx] at hpos
      simp [hx]
      omega
    · simp [hx]
  · have hread : r.read ptr = none := read_of_le (Nat.le_of_not_lt h)
    simp [held, Repliers.take, hread, List.set_eq_of_length_le (Nat.le_of_not_lt h)]

theorem count_drain (table : List (Option Nat)) (boxes : List (Option R)) :
    (drain boxes table).1.count (some x) + (drain boxes table).2.count x =
      boxes.count (some x) := by
  induction table generalizing boxes with
  | nil => simp [drain]
  | cons slot table ih =>
    cases slot with
    | none => exact ih boxes
    | some ptr =>
      simp only [drain]
      cases hp : boxes[ptr]?.join with
      | none => exact ih boxes
      | some reply =>
        have htake := held_take (r := ⟨table, boxes⟩) (x := x) ptr
        simp only [held, Repliers.take, read, hp, Option.some.injEq] at htake
        simp only [List.count_cons, beq_iff_eq]
        rw [← htake, ← ih (boxes.set ptr none)]
        omega

theorem held_drop : r.drop.1.held x + r.drop.2.count x = r.held x := count_drain _ _

end Held

section Drop

variable {r : Repliers R}

theorem read_drain_fst (table : List (Option Nat)) (boxes : List (Option R)) (ptr : Nat) :
    (drain boxes table).1[ptr]?.join = if some ptr ∈ table then none else boxes[ptr]?.join := by
  induction table generalizing boxes with
  | nil => simp [drain]
  | cons slot table ih =>
    cases slot with
    | none => simpa [drain] using ih boxes
    | some q =>
      have htake := read_take (⟨table, boxes⟩ : Repliers R) q ptr
      simp only [Repliers.take, read] at htake
      simp only [drain]
      cases hq : boxes[q]?.join with
      | none =>
        simp only [ih, List.mem_cons, Option.some.injEq]
        by_cases hpq : ptr = q
        · simp [hpq, hq]
        · simp [hpq]
      | some reply =>
        simp only [ih, htake, List.mem_cons, Option.some.injEq]
        by_cases hpq : ptr = q <;> simp [hpq]

theorem Wf.read_drop (h : r.Wf) (ptr : Nat) : r.drop.1.read ptr = none := by
  simp only [Repliers.drop, read, read_drain_fst]
  split
  · rfl
  · rename_i hm
    exact Option.not_isSome_iff_eq_none.mp fun hl => hm (h.live ptr hl)

theorem drop_boxes_length : r.drop.1.boxes.length = r.boxes.length := by
  have : ∀ (table : List (Option Nat)) (boxes : List (Option R)),
      (drain boxes table).1.length = boxes.length := by
    intro table
    induction table with
    | nil => exact fun _ => rfl
    | cons slot table ih =>
      intro boxes
      cases slot with
      | none => exact ih boxes
      | some ptr =>
        simp only [drain]
        split <;> simp [ih]
  exact this _ _

theorem Wf.drop (h : r.Wf) : r.drop.1.Wf where
  live := fun ptr hl => by simp [Live, h.read_drop] at hl
  nodup := by simp [Repliers.drop]
  valid := by simp [Repliers.drop]

end Drop

end Repliers

end Serverlessd
