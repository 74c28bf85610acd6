import CardSat.Fault

set_option autoImplicit false

/-! # Dense tables

A table with a value for every key below its length. It grows by `cover`, which fills the
new keys with one value, and refuses to read or write past its end.
-/

namespace CardSat

/-- A value of type `α` for every number below the length. -/
structure DenseTable (α : Type) where
  items : Array α

namespace DenseTable

variable {α : Type}

/-- The table of length zero. -/
def empty : DenseTable α := ⟨#[]⟩

/-- The number of keys. -/
def size (t : DenseTable α) : Nat := t.items.size

/-- Makes the table long enough for key `i`; new keys get the value `fill`. -/
def cover (t : DenseTable α) (i : Nat) (fill : α) : DenseTable α :=
  ⟨t.items ++ Array.replicate (i + 1 - t.items.size) fill⟩

/-- The value at a key, refused past the end. -/
def fetch (t : DenseTable α) (i : Nat) : Checked α := CardSat.fetch t.items i

/-- Writes the value at a key, refused past the end. -/
def set (t : DenseTable α) (i : Nat) (a : α) : Checked (DenseTable α) :=
  if i < t.items.size then .ok ⟨t.items.setIfInBounds i a⟩ else .error .absent

/-- Changes the value at a key, refused past the end. -/
def modify (t : DenseTable α) (i : Nat) (f : α → α) : Checked (DenseTable α) :=
  if i < t.items.size then .ok ⟨t.items.modify i f⟩ else .error .absent

/-- Keeps the keys below `n`. -/
def truncate (t : DenseTable α) (n : Nat) : DenseTable α := ⟨t.items.take n⟩

/-- The entries in ascending order of their keys. -/
def entries (t : DenseTable α) : List (Nat × α) :=
  t.items.toList.zipIdx.map fun (a, i) => (i, a)

/-- Applies a function to every value. -/
def map {β : Type} (f : α → β) (t : DenseTable α) : DenseTable β := ⟨t.items.map f⟩

end DenseTable

end CardSat
