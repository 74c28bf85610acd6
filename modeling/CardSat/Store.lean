import CardSat.Constraint

set_option autoImplicit false

/-! # The store of constraints

The constraints in use, each under its handle. Handles are given out in ascending order and
never again, so a handle to a freed constraint names nothing for good.
-/

namespace CardSat

/-- The constraints that were ever stored; a freed one leaves an empty slot. -/
structure Store where
  slots : Array (Option Constraint)
  /-- The number of constraints in use. -/
  live : Nat

namespace Store

/-- The store without constraints. -/
def empty : Store := ⟨#[], 0⟩

/-- The constraint under a handle, if it is in use. -/
def get? (s : Store) (h : Handle) : Option Constraint := s.slots.getD h.index none

/-- The constraint under a handle, refused when it was freed. -/
def fetch (s : Store) (h : Handle) : Checked Constraint := present (s.get? h)

/-- Whether nothing is stored under a handle any more. -/
def isDeleted (s : Store) (h : Handle) : Bool := (s.get? h).isNone

/-- Stores a constraint under a new handle. -/
def alloc (s : Store) (kind : Kind) (lits : Array Lit) : Checked (Handle × Store) := do
  require (2 ≤ lits.size) .tooFewLiterals
  return (⟨s.slots.size⟩, ⟨s.slots.push (some ⟨kind, lits⟩), s.live + 1⟩)

/-- Writes the constraint under a handle that is in use. -/
def put (s : Store) (h : Handle) (c : Constraint) : Store :=
  { s with slots := s.slots.setIfInBounds h.index (some c) }

/-- Frees the constraint under a handle. -/
def free (s : Store) (h : Handle) : Checked Store := do
  require (!s.isDeleted h) .absent
  return ⟨s.slots.setIfInBounds h.index none, s.live - 1⟩

/-- The handles in use in ascending order, each with its constraint. -/
def entries (s : Store) : List (Handle × Constraint) :=
  s.slots.toList.zipIdx.filterMap fun (slot, i) => slot.map fun c => (⟨i⟩, c)

end Store

end CardSat
