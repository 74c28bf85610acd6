import CardSat.Analysis.Redundancy

set_option autoImplicit false

/-! # Conflict analysis

What a search learns from a failed constraint. Starting from the failed constraint, literals of the
current level are resolved with the constraints that forced them, newest first, until one is left.
The clause so derived forces that literal's complement at an earlier level. Redundant literals are
then left out.

`analyze` gives the lesson of a conflict together with the variables and constraints that took part
in it, in the order in which they did. `failedAssumptions` traces a literal back to the decisions it
follows from.

An analysis reads the trail and the store and changes neither. Its state between conflicts are the
marks of the variables, which are all clear then.
-/

namespace CardSat

/-- Which redundant literals are left out of learnt clauses. -/
inductive Minimisation where
  | never
  /-- Those whose antecedents belong to the clause. -/
  | basic
  /-- All of them. -/
  | deep
  deriving DecidableEq

/-- The lasting state of conflict analysis. -/
structure Analysis where
  minimisation : Minimisation
  marks : Marks
  /-- The number of literals of the learnt clauses before minimisation. -/
  derivedLits : Nat
  /-- The number of literals of the learnt clauses. -/
  learntLits : Nat

/-- What a conflict teaches. -/
inductive Lesson where
  /-- The constraints cannot be satisfied. -/
  | unsatisfiable
  /-- A literal holds at the ground level. -/
  | unit (l : Lit)
  /-- A clause forces its first literal at the given level, to which its second one belongs. -/
  | clause (level : Nat) (lits : Array Lit)

/-- A lesson and what took part in deriving it. -/
structure Explanation where
  lesson : Lesson
  vars : List Var
  constraints : List Handle

/-- A clause being derived from a conflict. -/
structure Derivation where
  marks : Marks
  /-- The literals from levels between the ground level and the current one. -/
  lits : Array Lit
  /-- The number of marked literals of the current level. -/
  pending : Int
  vars : Array Var
  constraints : Array Handle

namespace Derivation

/-- Takes a false literal into the clause, unless it is there or false at the ground level. -/
def takeLit (t : Trail) (d : Derivation) (l : Lit) : Checked Derivation := do
  if (← d.marks.of l.var) ≠ .clear then return d
  let level := (← t.cell l.var).level
  if level = 0 then return d
  let d := { d with marks := ← d.marks.set l.var .inClause, vars := d.vars.push l.var }
  return if level ≥ t.level then { d with pending := d.pending + 1 }
    else { d with lits := d.lits.push l }

/-- Takes the antecedents of a constraint into the clause. -/
def takeConstraint (store : Store) (t : Trail) (d : Derivation) (h : Handle) (skipHead : Bool) :
    Checked Derivation := do
  let lits ← (← store.fetch h).antecedents t skipHead
  lits.foldlM (takeLit t) { d with constraints := d.constraints.push h }

/-- Resolves the marked literals below position `i` of the trail, newest first, until the last
one of the current level is reached. The answer is that literal. -/
def resolve (store : Store) (t : Trail) : (i : Nat) → Derivation → Checked (Lit × Derivation)
  | 0, _ => throw .absent
  | i + 1, d => do
    let l ← t.litAt i
    if (← d.marks.of l.var) = .clear then resolve store t i d
    else
      let d := { d with marks := ← d.marks.set l.var .clear, pending := d.pending - 1 }
      if d.pending ≤ 0 then return (l, d)
      else
        match (← t.cell l.var).reason with
        | none => throw (.impliedWithoutReason l)
        | some h => resolve store t i (← d.takeConstraint store t h true)

end Derivation

namespace Analysis

/-- The state without variables. -/
def empty (minimisation : Minimisation) : Analysis := ⟨minimisation, .empty, 0, 0⟩

/-- Adds a variable. -/
def addVar (a : Analysis) (v : Var) : Analysis :=
  { a with marks := a.marks.insert v.index .clear }

/-- Forgets the variables from number `n` on. -/
def truncateVars (a : Analysis) (n : Nat) : Analysis := { a with marks := a.marks.truncate n }

/-- Leaves out the literals of a list that are redundant. -/
def dropRedundant (store : Store) (t : Trail) :
    (lits : List Lit) → (kept : Array Lit) → Probe → Checked (Array Lit × Probe)
  | [], kept, p => return (kept, p)
  | l :: rest, kept, p => do
    match ← redundant store t l p with
    | (true, p) => dropRedundant store t rest kept p
    | (false, p) => dropRedundant store t rest (kept.push l) p

/-- Leaves redundant literals out of the clause of `first` and `rest`. The answer also gives
the marks with those of the clause cleared. -/
def minimise (m : Minimisation) (store : Store) (t : Trail) (marks : Marks) (first : Lit)
    (rest : List Lit) : Checked (Array Lit × Marks) := do
  match m with
  | .never => return (#[first] ++ rest, ← marks.clearAll (first :: rest))
  | .basic =>
    let kept ← rest.filterM fun l => return !(← directlyRedundant store t marks l)
    return (#[first] ++ kept, ← marks.clearAll (first :: rest))
  | .deep =>
    let (lits, p) ← dropRedundant store t rest #[first] ⟨marks, []⟩
    return (lits, ← p.marks.clearAll (first :: rest ++ p.touched))

/-- The position from one on whose literal has the highest level, the first of equals, and
that level. -/
def highestLevel (t : Trail) (lits : Array Lit) : Checked (Nat × Nat) := do
  let level (l : Lit) : Checked Nat := return (← t.cell l.var).level
  let start ← level (← fetch lits 1)
  (lits.toList.zipIdx.drop 2).foldlM (fun (best : Nat × Nat) (l, i) => do
    let n ← level l
    return if n > best.2 then (i, n) else best) (1, start)

/-- The lesson that a minimised clause teaches. -/
def lesson (t : Trail) (lits : Array Lit) : Checked Lesson := do
  if lits.size = 1 then return .unit (← fetch lits 0)
  let (i, level) ← highestLevel t lits
  return .clause level (lits.swapIfInBounds 1 i)

/-- What is to be learnt from a failed constraint. -/
def analyze (a : Analysis) (store : Store) (t : Trail) (failed : Handle) :
    Checked (Explanation × Analysis) := do
  if t.isGround then return (⟨.unsatisfiable, [], []⟩, a)
  let start : Derivation := ⟨a.marks, #[], 0, #[], #[]⟩
  let d ← start.takeConstraint store t failed false
  let (last, d) ← d.resolve store t t.size
  let rest := d.lits.toList
  let (lits, marks) ← minimise a.minimisation store t d.marks last.neg rest
  let a := { a with
    marks
    derivedLits := a.derivedLits + (rest.length + 1)
    learntLits := a.learntLits + lits.size }
  return (⟨← lesson t lits, d.vars.toList, d.constraints.toList⟩, a)

/-- One step of `failedAssumptions`: a marked literal of the trail is a decision, which is part
of the answer, or it passes its mark on to its antecedents. -/
def traceLit (store : Store) (t : Trail) (s : Array Lit × Marks) (l : Lit) :
    Checked (Array Lit × Marks) := do
  let (found, marks) := s
  if (← marks.of l.var) = .clear then return (found, marks)
  match (← t.cell l.var).reason with
  | none => return (found.push l.neg, ← marks.set l.var .clear)
  | some h =>
    let lits ← (← store.fetch h).antecedents t true
    let marks ← lits.foldlM (fun (m : Marks) a => do
      if (← t.cell a.var).level = 0 then return m else m.set a.var .inClause) marks
    return (found, ← marks.set l.var .clear)

/-- The complements of the decisions from which the complement of `p` follows, after `p`
itself. -/
def failedAssumptions (a : Analysis) (store : Store) (t : Trail) (p : Lit) :
    Checked (List Lit × Analysis) := do
  if t.isGround then return ([p], a)
  let marks ← a.marks.set p.var .inClause
  let (found, marks) ← (t.above 0).reverse.foldlM (traceLit store t) (#[p], marks)
  return (found.toList, { a with marks := ← marks.set p.var .clear })

end Analysis

end CardSat
