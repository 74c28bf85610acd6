import CardSat.Fault

set_option autoImplicit false

/-! # Receivers of constraints

What a source of constraints needs of its destination: new variables, clauses and at-most
constraints. The other cardinality constraints are made of these: at least `k` of the literals
are true when at most all but `k` of their complements are.
-/

namespace CardSat

/-- Takes in variables and constraints. The answers of the two ways to add a constraint are
false if the constraints are known to have no model. -/
class Receiver (σ : Type) where
  /-- Adds a variable, with the side of its first decision and whether it may be decided. -/
  newVar : σ → (negated decision : Bool) → Checked (Var × σ)
  /-- Adds a clause: some literal is true. -/
  addClause : σ → List Lit → Checked (Bool × σ)
  /-- Adds an at-most constraint: no more than `bound` literals are true. -/
  addAtMost : σ → List Lit → (bound : Nat) → Checked (Bool × σ)

namespace Receiver

variable {σ : Type} [Receiver σ]

/-- Adds the constraint that at least `bound` distinct literals of a list are true. -/
def addAtLeast (s : σ) (lits : List Lit) (bound : Nat) : Checked (Bool × σ) :=
  let distinct := Lit.sortDistinct lits
  if bound > distinct.length then addClause s []
  else addAtMost s (distinct.map Lit.neg) (distinct.length - bound)

/-- Adds the constraint that exactly `bound` literals of a list are true. -/
def addExactly (s : σ) (lits : List Lit) (bound : Nat) : Checked (Bool × σ) := do
  match ← addAtMost s lits bound with
  | (true, s) => addAtLeast s lits bound
  | (false, s) => return (false, s)

end Receiver

end CardSat
