import CardSat.Fault

set_option autoImplicit false

/-! # Sparse tables

A finite map from numbers to values, held as an array with empty slots. The entries are
listed in ascending order of their keys. Main operations: `insert`, `erase`, `truncate`,
and `fetch`, which refuses a missing key.
-/

namespace CardSat

/-- A finite map from numbers to values of type `α`. -/
structure SparseTable (α : Type) where
  slots : Array (Option α)

namespace SparseTable

variable {α : Type}

/-- The map without entries. -/
def empty : SparseTable α := ⟨#[]⟩

/-- The value at a key, if there is one. -/
def get? (t : SparseTable α) (i : Nat) : Option α := t.slots.getD i none

/-- Whether a key has a value. -/
def contains (t : SparseTable α) (i : Nat) : Bool := (t.get? i).isSome

/-- The value at a key, refused when there is none. -/
def fetch (t : SparseTable α) (i : Nat) : Checked α := present (t.get? i)

/-- Gives a key a value, in place of the one it may have had. -/
def insert (t : SparseTable α) (i : Nat) (a : α) : SparseTable α :=
  if i < t.slots.size then ⟨t.slots.setIfInBounds i (some a)⟩
  else ⟨(t.slots ++ Array.replicate (i - t.slots.size) none).push (some a)⟩

/-- Gives a key that has a value another one; refused when it has none. -/
def replace (t : SparseTable α) (i : Nat) (a : α) : Checked (SparseTable α) :=
  if t.contains i then .ok (t.insert i a) else .error .absent

/-- Removes a key. -/
def erase (t : SparseTable α) (i : Nat) : SparseTable α := ⟨t.slots.setIfInBounds i none⟩

/-- Removes every key from `n` on. -/
def truncate (t : SparseTable α) (n : Nat) : SparseTable α := ⟨t.slots.take n⟩

/-- The entries in ascending order of their keys. -/
def entries (t : SparseTable α) : List (Nat × α) :=
  t.slots.toList.zipIdx.filterMap fun (slot, i) => slot.map fun a => (i, a)

/-- The number of entries. -/
def size (t : SparseTable α) : Nat := t.slots.countP Option.isSome

/-- Applies a function to every value. -/
def map {β : Type} (f : α → β) (t : SparseTable α) : SparseTable β := ⟨t.slots.map (Option.map f)⟩

end SparseTable

end CardSat
