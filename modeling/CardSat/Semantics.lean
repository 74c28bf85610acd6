import CardSat.Constraint

set_option autoImplicit false

/-! # What constraints mean

A world gives every variable a value. A clause holds in the worlds that make one of its
literals true, an at-most constraint in those that make no more than `bound` of its distinct
literals true.

Each notion has a lemma that says when it holds (`Lit.holds_neg`, `clauseHolds_iff`,
`Constraint.holds_of_atMost`, `Constraint.holds_of_not_isAtMost`), and proofs use these lemmas.
-/

namespace CardSat

/-- A value for every variable. -/
abbrev World := Var → Bool

/-- Whether a world makes a literal true. -/
def Lit.holds (w : World) (l : Lit) : Bool := w l.var != l.negated

@[simp] theorem Lit.holds_neg (w : World) (l : Lit) : l.neg.holds w = !l.holds w := by
  cases h : w l.var <;> cases h' : l.negated <;> simp [Lit.holds, h, h']

namespace World

/-- The number of distinct literals of a list that a world makes true. -/
def count (w : World) (lits : List Lit) : Nat := lits.eraseDups.countP (Lit.holds w)

/-- Whether a world makes a literal of a clause true. -/
def clauseHolds (w : World) (lits : List Lit) : Bool := lits.any (Lit.holds w)

/-- Whether a world makes no more than `bound` distinct literals of a list true. -/
def atMostHolds (w : World) (lits : List Lit) (bound : Nat) : Bool := w.count lits ≤ bound

/-- Whether a world makes at least `bound` distinct literals of a list true. -/
def atLeastHolds (w : World) (lits : List Lit) (bound : Nat) : Bool := bound ≤ w.count lits

theorem clauseHolds_iff (w : World) (lits : List Lit) :
    w.clauseHolds lits = true ↔ ∃ l ∈ lits, l.holds w = true := by
  simp [clauseHolds]

end World

namespace Constraint

/-- Whether a constraint holds in a world. -/
def holds (c : Constraint) (w : World) : Bool :=
  match c.kind with
  | .atMost bound => w.atMostHolds c.lits.toList bound
  | _ => w.clauseHolds c.lits.toList

theorem holds_of_atMost {c : Constraint} {bound : Nat} (h : c.kind = .atMost bound) (w : World) :
    c.holds w = w.atMostHolds c.lits.toList bound := by
  simp [holds, h]

theorem holds_of_not_isAtMost {c : Constraint} (h : c.isAtMost = false) (w : World) :
    c.holds w = w.clauseHolds c.lits.toList := by
  unfold isAtMost at h
  unfold holds
  split <;> simp_all

end Constraint

end CardSat
