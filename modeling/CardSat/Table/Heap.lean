import CardSat.Table.Sparse

set_option autoImplicit false

/-! # A priority queue of variables

A binary heap that knows where each of its keys stands. The order is not stored: every
operation that compares keys takes the relation `before`, so that priorities may live, and
change, elsewhere; after a change of one key's priority, `update` puts that key back in
place.

The array `items` is the heap, the children of position `i` standing at `2 i + 1` and
`2 i + 2`; `places` gives the position of each key. A sift moves one key and writes the
places of the keys it passes; `settle` writes the place of the moved key at the end.
-/

namespace CardSat

/-- A heap of variables with the position of each. -/
structure VarHeap where
  items : Array Var
  places : SparseTable Nat

namespace VarHeap

/-- The heap without keys. -/
def empty : VarHeap := ⟨#[], SparseTable.empty⟩

/-- The number of keys. -/
def size (h : VarHeap) : Nat := h.items.size

/-- Whether there are no keys. -/
def isEmpty (h : VarHeap) : Bool := h.items.isEmpty

/-- Whether `v` is a key. -/
def contains (h : VarHeap) (v : Var) : Bool := h.places.contains v.index

/-- Writes down that the key at position `i` stands there. -/
def settle (h : VarHeap) (i : Nat) : VarHeap :=
  match h.items[i]? with
  | some v => { h with places := h.places.insert v.index i }
  | none => h

/-- Moves the key at position `i` towards the root while it is before its parent. -/
def siftUp (before : Var → Var → Bool) (h : VarHeap) (i : Nat) : VarHeap :=
  if hi : 0 < i ∧ i < h.items.size then
    have hp : (i - 1) / 2 < h.items.size := by omega
    let parent := h.items[(i - 1) / 2]
    if before h.items[i] parent then
      siftUp before ⟨h.items.swap i ((i - 1) / 2), h.places.insert parent.index i⟩ ((i - 1) / 2)
    else h.settle i
  else h.settle i
termination_by i
decreasing_by omega

/-- The child of position `i` that should stand above its sibling: the right one only if it
is strictly before the left one. -/
def chosenChild (before : Var → Var → Bool) (items : Array Var) (i : Nat)
    (hi : 2 * i + 1 < items.size) : Nat :=
  if hr : 2 * i + 2 < items.size then
    if before items[2 * i + 2] items[2 * i + 1] then 2 * i + 2 else 2 * i + 1
  else 2 * i + 1

theorem chosenChild_lt (before : Var → Var → Bool) (items : Array Var) (i : Nat)
    (hi : 2 * i + 1 < items.size) : chosenChild before items i hi < items.size := by
  unfold chosenChild
  split
  · split <;> omega
  · exact hi

theorem lt_chosenChild (before : Var → Var → Bool) (items : Array Var) (i : Nat)
    (hi : 2 * i + 1 < items.size) : i < chosenChild before items i hi := by
  unfold chosenChild
  split
  · split <;> omega
  · omega

/-- Moves the key at position `i` away from the root while a child is before it. -/
def siftDown (before : Var → Var → Bool) (h : VarHeap) (i : Nat) : VarHeap :=
  if hi : 2 * i + 1 < h.items.size then
    let c := chosenChild before h.items i hi
    have hc : c < h.items.size := chosenChild_lt before h.items i hi
    have hlt : i < c := lt_chosenChild before h.items i hi
    let child := h.items[c]
    if before child h.items[i] then
      siftDown before ⟨h.items.swap c i, h.places.insert child.index i⟩ c
    else h.settle i
  else h.settle i
termination_by h.items.size - i
decreasing_by simp only [Array.size_swap]; omega

/-- Adds a key; the answer is whether it was absent. -/
def insert (before : Var → Var → Bool) (h : VarHeap) (v : Var) : Bool × VarHeap :=
  if h.contains v then (false, h)
  else
    let last := h.items.size
    (true, siftUp before { h with items := h.items.push v } last)

/-- Removes the key at the root. The last key takes its place and is sifted down. -/
def pop (before : Var → Var → Bool) (h : VarHeap) : Option Var × VarHeap :=
  match h.items[0]? with
  | none => (none, h)
  | some root =>
    let last := h.items.back?.getD root
    let rest : VarHeap := ⟨(h.items.setIfInBounds 0 last).pop, h.places.erase root.index⟩
    (some root, if rest.isEmpty then rest else siftDown before rest 0)

/-- Puts a key back in place after its priority changed; the answer is whether it is one. -/
def update (before : Var → Var → Bool) (h : VarHeap) (v : Var) : Bool × VarHeap :=
  match h.places.get? v.index with
  | none => (false, h)
  | some i =>
    let down := siftDown before h i
    match down.places.get? v.index with
    | none => (true, down)
    | some j => (true, siftUp before down j)

/-- Sifts down the positions below `n`, the last one first. -/
def siftAll (before : Var → Var → Bool) : (n : Nat) → VarHeap → VarHeap
  | 0, h => h
  | n + 1, h => siftAll before n (siftDown before h n)

/-- The heap of the given keys. -/
def ofArray (before : Var → Var → Bool) (keys : Array Var) : VarHeap :=
  siftAll before keys.size ⟨keys, SparseTable.empty⟩

end VarHeap

end CardSat
