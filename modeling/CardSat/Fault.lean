import CardSat.Literal

set_option autoImplicit false

/-! # Refused calls

Operations have conditions, and a call that breaks one is refused. A `Fault` says which condition
was broken; `Checked α` is a result that may have been refused. Some faults carry the text that a
caller sees, the others are only recognised by their kind.

A refused call has no result and leaves no state, as a program that stops does. Loops that are
counted are refused when the count runs out (`Fault.exhausted`), so that their recursion is
structural and running out of rounds can be told from every other outcome.
-/

namespace CardSat

/-- Why a call was refused. -/
inductive Fault where
  /-- A variable number beyond the largest one. -/
  | varOutOfBound (index : Nat)
  /-- A literal number beyond the largest one. -/
  | litOutOfBound (index : Nat)
  /-- The random seed is zero, negative or not a number. -/
  | seedNotPositive
  /-- A decision is taken back on a variable without a value. -/
  | undoUnassigned (v : Var)
  /-- A decision is taken back on a variable that was forced below every decision. -/
  | undoGround (v : Var)
  /-- A learnt clause is asserted at a level other than the one it belongs to. -/
  | notAtAssertionLevel
  /-- A learnt clause is asserted although none is waiting. -/
  | noLearntClause
  /-- A snapshot is taken of a solver that may rewrite its constraints. -/
  | saveUnavailable
  /-- A snapshot is loaded into a solver that may rewrite its constraints. -/
  | loadUnavailable
  /-- Conflict analysis needs the reason of a literal that has none. -/
  | impliedWithoutReason (l : Lit)
  /-- A variable, key, position or handle that names nothing. -/
  | absent
  /-- A value is given to a variable that has one. -/
  | alreadyAssigned
  /-- An operation of the ground level is called above it. -/
  | aboveGround
  /-- Variables are dropped while some literal is assigned. -/
  | trailNotEmpty
  /-- A stored constraint needs at least two literals. -/
  | tooFewLiterals
  /-- A stored at-most constraint needs a bound above zero and below its length. -/
  | boundOutOfRange
  /-- The restart counter left the range of the restart sequence. -/
  | restartOutOfRange
  /-- A bounded loop did not come to its end. -/
  | exhausted
  deriving DecidableEq

/-- The result of a call that may be refused. -/
abbrev Checked (α : Type) := Except Fault α

namespace Fault

/-- The text a caller sees, for the faults that have one. -/
def message : Fault → Option String
  | varOutOfBound i => some ("Var index " ++ toString i ++ " is out of bound")
  | litOutOfBound i => some ("Lit index " ++ toString i ++ " is out of bound")
  | seedNotPositive => some "random seed must be positive"
  | undoUnassigned v => some ("undo_decide on unassigned variable " ++ v.text)
  | undoGround v => some ("undo_decide on ground-level variable " ++ v.text)
  | notAtAssertionLevel =>
      some "assert_learned_clause called although not at assertion level"
  | noLearntClause => some "assert_learned_clause called without a learnt clause"
  | saveUnavailable => some "Cannot save a state when the incremental mode is deactivated"
  | loadUnavailable => some "Cannot load a state when the incremental mode is deactivated"
  | impliedWithoutReason l => some ("Implied literal " ++ l.text ++ " has no reason")
  | _ => none

end Fault

/-- Refuses with `f` unless `b` holds. -/
def require (b : Bool) (f : Fault) : Checked Unit := if b then .ok () else .error f

/-- The value of an option, refused when there is none. -/
def present {α : Type} : Option α → Checked α
  | some a => .ok a
  | none => .error .absent

/-- The entry of an array at a position, refused past its end. -/
def fetch {α : Type} (xs : Array α) (i : Nat) : Checked α := present xs[i]?

/-- The variable with a given number, refused beyond `Var.maxIndex`. -/
def Var.checked (i : Nat) : Checked Var :=
  if i ≤ Var.maxIndex then .ok ⟨i⟩ else .error (.varOutOfBound i)

/-- The literal with a given number, refused beyond `Lit.maxIndex`. -/
def Lit.checked (i : Nat) : Checked Lit :=
  if i ≤ Lit.maxIndex then .ok (Lit.ofIndex i) else .error (.litOutOfBound i)

end CardSat
