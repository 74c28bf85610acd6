import CardSat.Constraint
import CardSat.Model
import CardSat.Power

set_option autoImplicit false

/-! # The trail

The current partial assignment. The trail lists the true literals in the order in which they became
true; `starts` holds the position where each decision level above the ground level begins, and
`head` is the position of the first literal that has not been propagated. Each variable has a `Cell`
with its value, its level and the constraint that forced it.

Main operations: `assign`, `openLevel`, `rewind` and `dequeue`.

A level may be empty: a position may begin more than one level. Taking values back clears the value
of a cell and its reason, and leaves the level, which nobody reads while there is no value.
-/

namespace CardSat

/-- What is known of a variable. The level is that of its last value and stays when the value
is taken back. -/
structure Cell where
  value : Truth := .unset
  level : Nat := 0
  /-- The constraint that forced the value; none for decisions and facts. -/
  reason : Option Handle := none

/-- A partial assignment in the order in which it was made. -/
structure Trail where
  cells : Array Cell
  lits : Array Lit
  starts : Array Nat
  head : Nat

namespace Trail

/-- The assignment over no variables. -/
def empty : Trail := ⟨#[], #[], #[], 0⟩

/-- The number of variables. -/
def varCount (t : Trail) : Nat := t.cells.size

/-- The number of assigned variables. -/
def size (t : Trail) : Nat := t.lits.size

/-- The number of open decision levels; zero at the ground level. -/
def level (t : Trail) : Nat := t.starts.size

/-- Whether no decision level is open. -/
def isGround (t : Trail) : Bool := t.level == 0

/-- The position where a level ends. -/
def levelEnd (t : Trail) (level : Nat) : Nat := t.starts.getD level t.lits.size

/-- The position where a level begins. -/
def levelStart (t : Trail) : (level : Nat) → Nat
  | 0 => 0
  | level + 1 => t.levelEnd level

/-- The number of literals of the ground level. -/
def groundSize (t : Trail) : Nat := t.levelEnd 0

/-! ## Reading -/

/-- The cell of a variable, refused for an unknown one. -/
def cell (t : Trail) (v : Var) : Checked Cell := fetch t.cells v.index

/-- The value of a literal. -/
def value (t : Trail) (l : Lit) : Checked Truth := do
  return (← t.cell l.var).value.ofSide l.negated

/-- Whether a literal is true. -/
def isTrue (t : Trail) (l : Lit) : Checked Bool := do return (← t.value l) == .yes

/-- Whether a literal is false. -/
def isFalse (t : Trail) (l : Lit) : Checked Bool := do return (← t.value l) == .no

/-- Whether a variable has no value. -/
def isUnset (t : Trail) (v : Var) : Checked Bool := do return (← t.cell v).value.isUnset

/-- The cell of a variable that has a value. -/
def assigned? (t : Trail) (v : Var) : Checked (Option Cell) := do
  let c ← t.cell v
  return if c.value.isUnset then none else some c

/-- The literal at a position. -/
def litAt (t : Trail) (i : Nat) : Checked Lit := fetch t.lits i

/-- The literals assigned above a level, oldest first. -/
def above (t : Trail) (level : Nat) : List Lit := t.lits.toList.drop (t.levelEnd level)

/-- The literals of the current level, oldest first. -/
def currentLevel (t : Trail) : List Lit := t.lits.toList.drop (t.levelStart t.level)

/-- Whether `h` is the reason of the value of `l`. -/
def isReasonFor (t : Trail) (h : Handle) (l : Lit) : Checked Bool := do
  let c ← t.cell l.var
  return !c.value.isUnset && c.reason == some h

/-- The values of the assigned variables. -/
def model (t : Trail) : Model :=
  ⟨t.cells.map fun c => match c.value with
    | .unset => none
    | .no => some false
    | .yes => some true⟩

/-- An estimate of how much of the search space is behind: every level counts its assigned
variables, weighted by a power of the reciprocal of the number of variables. -/
def progress (t : Trail) : Float :=
  if t.varCount = 0 then 1.0
  else
    let f := 1.0 / t.varCount.toFloat
    let sum := (List.range (t.level + 1)).foldl (fun (sum : Float) (level : Nat) =>
      sum + power f (level : Int) * (t.levelEnd level - t.levelStart level).toFloat) 0.0
    sum * f

/-- The literals of every level that has some, each level in brackets after its number. -/
def text (t : Trail) : String :=
  String.join <| (List.range (t.level + 1)).map fun level =>
    let lits := t.lits.toList.drop (t.levelStart level)
      |>.take (t.levelEnd level - t.levelStart level)
    if lits.isEmpty then ""
    else "[" ++ toString level ++ ":" ++ String.join (lits.map fun l => " " ++ l.text) ++ " ]"

/-! ## Growing and shrinking -/

/-- Adds a variable without a value. -/
def newVar (t : Trail) : Checked (Var × Trail) := do
  let v ← Var.checked t.varCount
  return (v, { t with cells := t.cells.push {} })

/-- Forgets the variables from number `n` on; refused while a literal is assigned. -/
def truncateVars (t : Trail) (n : Nat) : Checked Trail := do
  require t.lits.isEmpty .trailNotEmpty
  return { t with cells := t.cells.take n }

/-- Opens a decision level. -/
def openLevel (t : Trail) : Trail := { t with starts := t.starts.push t.lits.size }

/-- Writes the cell of a variable. -/
def write (cells : Array Cell) (v : Var) (c : Cell) : Array Cell := cells.setIfInBounds v.index c

/-- Makes a literal true at the current level; refused when its variable has a value. -/
def assign (t : Trail) (l : Lit) (reason : Option Handle) : Checked Trail := do
  let c ← t.cell l.var
  require c.value.isUnset .alreadyAssigned
  let made : Cell := ⟨.ofBool !l.negated, t.level, reason⟩
  return { t with cells := write t.cells l.var made, lits := t.lits.push l }

/-- Makes a literal true unless its variable has a value; the answer is whether the literal is
true afterwards. -/
def tryAssign (t : Trail) (l : Lit) (reason : Option Handle) : Checked (Bool × Trail) := do
  match ← t.value l with
  | .yes => return (true, t)
  | .no => return (false, t)
  | .unset => return (true, ← t.assign l reason)

/-- Forgets which constraint forced a variable. -/
def clearReason (t : Trail) (v : Var) : Checked Trail := do
  require (v.index < t.cells.size) .absent
  return { t with cells := t.cells.modify v.index fun c => { c with reason := none } }

/-- Takes back the value of a variable. -/
def unset (cells : Array Cell) (v : Var) : Array Cell :=
  cells.modify v.index fun c => { c with value := .unset, reason := none }

/-- Takes back everything above a level. The answer lists the literals taken back, newest
first, each with its level. -/
def rewind (t : Trail) (target : Nat) : List (Nat × Lit) × Trail :=
  let bottom := t.levelEnd target
  let undone := (t.lits.toList.drop bottom).reverse
  let levelOf (l : Lit) : Nat := (t.cells[l.var.index]?.map Cell.level).getD 0
  (undone.map fun l => (levelOf l, l),
    { cells := undone.foldl (fun cells l => unset cells l.var) t.cells
      lits := t.lits.take bottom
      starts := t.starts.take target
      head := min t.head bottom })

/-- Takes back everything, the ground level included. The answer lists the literals taken
back, oldest first. -/
def rewindAll (t : Trail) : List Lit × Trail :=
  (t.lits.toList,
    { cells := t.lits.foldl (fun cells l => unset cells l.var) t.cells
      lits := #[]
      starts := #[]
      head := 0 })

/-! ## The propagation queue -/

/-- The oldest literal that has not been propagated; it counts as propagated afterwards. -/
def dequeue (t : Trail) : Option (Lit × Trail) :=
  t.lits[t.head]?.map fun l => (l, { t with head := t.head + 1 })

/-- Counts every literal as propagated. -/
def dequeueAll (t : Trail) : Trail := { t with head := t.lits.size }

end Trail

end CardSat
