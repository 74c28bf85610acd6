import CardSat.Fault

set_option autoImplicit false

/-! # Stored constraints

A constraint is a clause, of which at least one literal is true, or an at-most constraint,
of which no more than `bound` literals are true. Learnt clauses carry an activity and a
serial number. The order of the literals matters: the first `watchers` of them are watched,
and the first literal of a clause is the one it forces.
-/

namespace CardSat

/-- Names a stored constraint. A handle is never given out twice. -/
structure Handle where
  index : Nat
  deriving DecidableEq

/-- What a constraint demands of its literals, and where it comes from. -/
inductive Kind where
  /-- A clause of the problem. -/
  | clause
  /-- A clause derived from a conflict. -/
  | learnt (activity : Float) (serial : Nat)
  /-- An at-most constraint of the problem. -/
  | atMost (bound : Nat)

/-- A kind of demand on a list of literals. -/
structure Constraint where
  kind : Kind
  lits : Array Lit

namespace Constraint

/-- The number of literals. -/
def size (c : Constraint) : Nat := c.lits.size

/-- Whether the constraint was derived from a conflict. -/
def isLearnt (c : Constraint) : Bool :=
  match c.kind with
  | .learnt _ _ => true
  | _ => false

/-- Whether the constraint bounds the number of true literals. -/
def isAtMost (c : Constraint) : Bool :=
  match c.kind with
  | .atMost _ => true
  | _ => false

/-- The activity of a learnt clause; zero for the others. -/
def activity (c : Constraint) : Float :=
  match c.kind with
  | .learnt a _ => a
  | _ => 0.0

/-- The serial number of a learnt clause. -/
def serial? (c : Constraint) : Option Nat :=
  match c.kind with
  | .learnt _ s => some s
  | _ => none

/-- The number of leading positions that are watched: two for a clause, and for an at-most
constraint one more than the number of literals that have to be false. Positions are 64-bit
words, so a bound beyond the length plus one wraps round. -/
def watchers (c : Constraint) : Nat :=
  match c.kind with
  | .atMost bound =>
    if bound ≤ c.size + 1 then c.size + 1 - bound else UInt64.size + c.size + 1 - bound
  | _ => 2

/-- The watched literals. -/
def watched (c : Constraint) : Checked (List Lit) := do
  require (c.watchers ≤ c.size) .absent
  return c.lits.toList.take c.watchers

/-- The literals under which the watchers of a constraint are kept: for an at-most constraint
the watched literals, for a clause their complements. -/
def watchKeys (c : Constraint) : Checked (List Lit) := do
  let lits ← c.watched
  return if c.isAtMost then lits else lits.map Lit.neg

/-- The first literal. -/
def head (c : Constraint) : Checked Lit := fetch c.lits 0

/-- The first two literals. -/
def headPair (c : Constraint) : Checked (Lit × Lit) := do
  return (← fetch c.lits 0, ← fetch c.lits 1)

/-- Exchanges the literals at two positions. -/
def swap (c : Constraint) (i j : Nat) : Checked Constraint := do
  require (i < c.size ∧ j < c.size) .absent
  return { c with lits := c.lits.swapIfInBounds i j }

/-- The first position from `i` on whose literal passes a test. -/
def findFrom (test : Lit → Checked Bool) : (lits : List Lit) → (i : Nat) → Checked (Option Nat)
  | [], _ => .ok none
  | l :: rest, i => do
    if ← test l then return some i else findFrom test rest (i + 1)

/-- Looks for an unwatched literal that passes a test, and exchanges the first such literal
with the one at position `place`. -/
def pull (c : Constraint) (place : Nat) (test : Lit → Checked Bool) :
    Checked (Option (Lit × Constraint)) := do
  match ← findFrom test (c.lits.toList.drop c.watchers) c.watchers with
  | none => return none
  | some i =>
    let c ← c.swap i place
    return some (← fetch c.lits place, c)

/-- Drops the literals from position `i` on that fail a test. The last literal fills the
place of a dropped one and is tested there. -/
def retainFrom (test : Lit → Checked Bool) (lits : Array Lit) (i : Nat) : Checked (Array Lit) := do
  if h : i < lits.size then
    if ← test lits[i] then retainFrom test lits (i + 1)
    else
      let last := lits.back (by omega)
      retainFrom test (lits.set i last).pop i
  else return lits
termination_by lits.size - i
decreasing_by
  · omega
  · simp only [Array.size_pop, Array.size_set]; omega

/-- Drops every literal from position `base` on that fails a test. -/
def retainSuffix (c : Constraint) (base : Nat) (test : Lit → Checked Bool) :
    Checked Constraint := do
  return { c with lits := ← retainFrom test c.lits base }

/-- The literals joined by the connective of the kind, and the bound of an at-most
constraint. -/
def text (c : Constraint) : String :=
  let words := c.lits.toList.map Lit.text
  match c.kind with
  | .atMost bound => "(" ++ " + ".intercalate words ++ ") ≤ " ++ toString bound
  | _ => "(" ++ " ∨ ".intercalate words ++ ")"

end Constraint

end CardSat
