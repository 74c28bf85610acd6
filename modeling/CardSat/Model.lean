import CardSat.Table.Sparse

set_option autoImplicit false

/-! # Partial models

A model gives values to some variables. It is a solver's answer, and constraints can be checked
against it: a literal over a variable without a value counts as not true.

A bound is checked against the occurrences of true literals in a list, and not against the distinct
ones.
-/

namespace CardSat

/-- The values of some variables. -/
abbrev Model := SparseTable Bool

namespace Model

/-- The model of a list of literals; of two literals of one variable the later one counts. -/
def ofLits (lits : List Lit) : Model :=
  lits.foldl (fun m l => m.insert l.var.index !l.negated) SparseTable.empty

/-- The literals that a model makes true, in ascending order of their variables. -/
def lits (m : Model) : List Lit := m.entries.map fun (i, b) => ⟨⟨i⟩, !b⟩

/-- Whether a model makes a literal true. -/
def makesTrue (m : Model) (l : Lit) : Bool := m.get? l.var.index == some !l.negated

/-- Whether a model makes some literal of a clause true. -/
def satisfiesClause (m : Model) (lits : List Lit) : Bool := lits.any m.makesTrue

/-- Whether a model makes at most `bound` entries of a list of literals true. -/
def satisfiesAtMost (m : Model) (lits : List Lit) (bound : Nat) : Bool :=
  lits.countP m.makesTrue ≤ bound

end Model

end CardSat
