import CardSat.Constraint.Status
import CardSat.Store

set_option autoImplicit false

/-! # Redundant literals of a learnt clause

A literal of a learnt clause can be left out when it follows from the others: the constraint
that forced its complement has only antecedents that hold at the ground level, belong to the
clause, or are redundant themselves. `redundantWithin` explores this relation depth first.
The marks of variables it leaves behind record what it found, so that no variable is explored
twice; `Probe.touched` lists the variables whose marks have to be cleared at the end.
-/

namespace CardSat

/-- What conflict analysis has noted of a variable. -/
inductive Mark where
  | clear
  /-- The variable belongs to the clause under construction. -/
  | inClause
  /-- The literal follows from the clause. -/
  | removable
  /-- The literal does not follow from the clause. -/
  | failed
  deriving DecidableEq

/-- The marks of all variables. -/
abbrev Marks := SparseTable Mark

namespace Marks

/-- The mark of a variable. -/
def of (m : Marks) (v : Var) : Checked Mark := m.fetch v.index

/-- Marks a variable. -/
def set (m : Marks) (v : Var) (mark : Mark) : Checked Marks := m.replace v.index mark

/-- Clears the marks of the variables of some literals. -/
def clearAll (m : Marks) (lits : List Lit) : Checked Marks :=
  lits.foldlM (fun m l => set m l.var .clear) m

end Marks

/-- The marks during a search for redundant literals. -/
structure Probe where
  marks : Marks
  /-- The literals marked by the search. -/
  touched : List Lit

namespace Probe

/-- Marks a literal that has no mark. -/
def note (p : Probe) (l : Lit) (mark : Mark) : Checked Probe := do
  if (← p.marks.of l.var) = .clear then
    return ⟨← p.marks.set l.var mark, l :: p.touched⟩
  else return p

end Probe

/-- Whether all literals of a list are explained; `descend` answers for those that have no
mark yet. -/
def allExplained (t : Trail) (descend : Lit → Probe → Checked (Bool × Probe)) :
    (lits : List Lit) → Probe → Checked (Bool × Probe)
  | [], p => return (true, p)
  | l :: rest, p => do
    let cell ← t.cell l.var
    let mark ← p.marks.of l.var
    if cell.level = 0 ∨ mark = .inClause ∨ mark = .removable then allExplained t descend rest p
    else if mark = .failed ∨ cell.reason.isNone then return (false, p)
    else
      match ← descend l p with
      | (true, p) => allExplained t descend rest p
      | (false, p) => return (false, p)

/-- Whether a false literal is redundant, explored to at most a given depth. -/
def redundantWithin (store : Store) (t : Trail) :
    (depth : Nat) → Lit → Probe → Checked (Bool × Probe)
  | 0, _, _ => throw .exhausted
  | depth + 1, l, p => do
    match (← t.cell l.var).reason with
    | none => return (false, p)
    | some h =>
      let lits ← (← store.fetch h).antecedents t true
      let (explained, p) ← allExplained t (redundantWithin store t depth) lits p
      return (explained, ← p.note l (if explained then .removable else .failed))

/-- Whether a false literal is redundant. An antecedent stands before the literal it explains
on the trail, which bounds the depth. -/
def redundant (store : Store) (t : Trail) (l : Lit) (p : Probe) : Checked (Bool × Probe) :=
  redundantWithin store t (t.size + 1) l p

/-- Whether the antecedents of a false literal belong to the clause themselves. -/
def directlyRedundant (store : Store) (t : Trail) (marks : Marks) (l : Lit) : Checked Bool := do
  match (← t.cell l.var).reason with
  | none => return false
  | some h =>
    (← (← store.fetch h).antecedents t true).allM fun a => do
      return (← marks.of a.var) ≠ .clear || (← t.cell a.var).level = 0

end CardSat
