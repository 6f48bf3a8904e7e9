import Mathlib.Data.Multiset.AddSub

universe u

/-- `strong` is the count.  Each of the `owners` has a handle, and raw pointers stand for `raw`
more references.  `drops` says how often the value was dropped, and `undefined` that a raw
pointer was used that stands for nothing. -/
structure Counted (ι : Type u) where
  strong : Nat := 0
  owners : Multiset ι := 0
  raw : Nat := 0
  drops : Nat := 0
  undefined : Bool := false

namespace Counted

variable {ι : Type u}

def new (i : ι) : Counted ι := { strong := 1, owners := {i} }

def clone (c : Counted ι) (i : ι) : Counted ι :=
  { c with strong := c.strong + 1, owners := i ::ₘ c.owners }

def incrementStrongCount (c : Counted ι) : Counted ι :=
  { c with strong := c.strong + 1, raw := c.raw + 1, undefined := c.undefined || c.strong = 0 }

def fromRaw (c : Counted ι) (i : ι) : Counted ι :=
  { c with owners := i ::ₘ c.owners, raw := c.raw - 1, undefined := c.undefined || c.raw = 0 }

def of (owners : Multiset ι) (raw drops : Nat) : Counted ι :=
  { strong := raw + owners.card, owners, raw, drops }

variable {owners : Multiset ι} {raw drops : Nat} {i j : ι}

@[simp] theorem of_strong : (of owners raw drops).strong = raw + owners.card := rfl
@[simp] theorem of_drops : (of owners raw drops).drops = drops := rfl
@[simp] theorem of_undefined : (of owners raw drops).undefined = false := rfl

@[simp] theorem new_eq : new i = of {i} 0 0 := rfl

@[simp] theorem clone_of : (of owners raw drops).clone i = of (i ::ₘ owners) raw drops := by
  simp [of, clone, Nat.add_assoc]

theorem incrementStrongCount_of (h : 0 < raw + owners.card) :
    (of owners raw drops).incrementStrongCount = of owners (raw + 1) drops := by
  have hne : (of owners raw drops).strong ≠ 0 := Nat.pos_iff_ne_zero.mp h
  unfold incrementStrongCount
  rw [decide_eq_false hne]
  simp [of]
  omega

@[simp] theorem fromRaw_of :
    (of owners (raw + 1) drops).fromRaw i = of (i ::ₘ owners) raw drops := by
  simp [of, fromRaw]
  omega

section Owners

variable [DecidableEq ι]

def move (c : Counted ι) (i j : ι) : Counted ι := { c with owners := j ::ₘ c.owners.erase i }

def intoRaw (c : Counted ι) (i : ι) : Counted ι :=
  { c with owners := c.owners.erase i, raw := c.raw + 1 }

def drop (c : Counted ι) (i : ι) : Counted ι :=
  { c with
    strong := c.strong - 1
    owners := c.owners.erase i
    drops := if c.strong = 1 then c.drops + 1 else c.drops }

@[simp] theorem move_of : (of (i ::ₘ owners) raw drops).move i j = of (j ::ₘ owners) raw drops := by
  simp [of, move]

@[simp] theorem intoRaw_of :
    (of (i ::ₘ owners) raw drops).intoRaw i = of owners (raw + 1) drops := by
  simp [of, intoRaw]
  omega

theorem drop_of : (of (i ::ₘ owners) raw drops).drop i =
    of owners raw (if raw = 0 ∧ owners = 0 then drops + 1 else drops) := by
  have hlast : raw + (owners.card + 1) = 1 ↔ raw = 0 ∧ owners = 0 := by
    rw [← Multiset.card_eq_zero]
    omega
  simp [of, drop, hlast]

theorem drop_of_singleton : (of {i} 0 drops).drop i = of 0 0 (drops + 1) :=
  drop_of.trans (by simp)

theorem drop_of_ne_zero (h : owners ≠ 0) :
    (of (i ::ₘ owners) raw drops).drop i = of owners raw drops := by
  simp [drop_of, h]

end Owners

end Counted
