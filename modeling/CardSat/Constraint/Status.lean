import CardSat.Trail

set_option autoImplicit false

/-! # Constraints under an assignment

What the trail says about a stored constraint: whether it is satisfied whatever happens to
the unassigned variables, and which literals explain that it forces a literal or fails.
-/

namespace CardSat

namespace Constraint

/-- Whether the assignment satisfies a constraint. A clause needs a true literal. An at-most
constraint is satisfied when no more than `bound` literals are left that are not false. -/
def isSatisfied (c : Constraint) (t : Trail) : Checked Bool :=
  match c.kind with
  | .atMost bound => do
    let falses ← c.lits.toList.filterM t.isFalse
    return bound ≤ c.size && c.size ≤ falses.length + bound
  | _ => c.lits.toList.anyM t.isTrue

/-- The false literals that explain a failed constraint or, with `skipHead`, the value of the
literal it forced. For a clause these are its literals, for an at-most constraint the
complements of its true literals. -/
def antecedents (c : Constraint) (t : Trail) (skipHead : Bool) : Checked (List Lit) :=
  match c.kind with
  | .atMost _ => do
    let trues ← c.lits.toList.filterM t.isTrue
    return trues.map Lit.neg
  | _ => do
    require (!skipHead || 0 < c.size) .absent
    return if skipHead then c.lits.toList.drop 1 else c.lits.toList

end Constraint

end CardSat
