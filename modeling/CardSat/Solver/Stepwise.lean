import CardSat.Solver

set_option autoImplicit false

/-! # Directing a search step by step

For callers that build a search tree of their own. The caller opens decision levels one by
one with `decide`, reads what they imply with `newlyImplied`, and goes back with `undo`. A
decision that fails leaves a clause to be learnt; once the caller has gone back to the level
where it forces a literal, `assertLearnt` adds it.
-/

namespace CardSat

namespace Solver

/-- Draws the lesson of a conflict and keeps it for `assertLearnt`. Without an open level the
constraints have no model. -/
def keepLesson (s : Solver) (failed : Handle) : Checked Solver := do
  let (lesson, engine) ← s.engine.analyze failed
  match lesson with
  | .unsatisfiable =>
    return { s with
      ok := false
      engine := ← engine.cancelUntil 0
      pending := { s.pending with clause := none, level := none } }
  | .unit l =>
    return { s with engine, pending := { s.pending with clause := some #[l], level := some 0 } }
  | .clause level lits =>
    return { s with engine, pending := { s.pending with clause := some lits, level := some level } }

/-- Propagates; the answer is false if a constraint fails, whose lesson is kept. -/
def propagateStep (s : Solver) : Checked (Bool × Solver) := do
  match ← s.engine.propagate with
  | (none, engine) => return (true, { s with engine })
  | (some h, engine) => return (false, ← { s with engine }.keepLesson h)

/-- Notes whether there is something for `newlyImplied` to read. -/
def setUnread (s : Solver) (unread : Bool) : Solver :=
  { s with pending := { s.pending with unread } }

/-- Propagates the facts; the answer is false if the constraints have no model. -/
def start (s : Solver) : Checked (Bool × Solver) := do
  let (failed, engine) ← s.engine.propagate
  return (failed.isNone, { s.setUnread true with engine })

/-- Opens a level on which `v` has the value `phase`, and propagates; the answer is false if a
constraint fails. -/
def decide (s : Solver) (v : Var) (phase : Bool) : Checked (Bool × Solver) := do
  let engine ← s.engine.decideLit (v.lit !phase)
  { s.setUnread true with engine }.propagateStep

/-- Takes back the level on which `v` got its value, and everything above. -/
def undo (s : Solver) (v : Var) : Checked Solver := do
  match ← s.level v with
  | none => throw (.undoUnassigned v)
  | some 0 => throw (.undoGround v)
  | some (level + 1) =>
    return { s.setUnread false with engine := ← s.engine.cancelUntil level }

/-- Whether the clause to be learnt forces its first literal at the present level. -/
def atAssertionLevel (s : Solver) : Bool := s.pending.level == some s.engine.trail.level

/-- Learns the clause that the last failed decision left, and propagates; the answer is false
if a constraint fails. -/
def assertLearnt (s : Solver) : Checked (Bool × Solver) := do
  require s.atAssertionLevel .notAtAssertionLevel
  match s.pending.clause with
  | none => throw .noLearntClause
  | some lits =>
    let engine ← s.engine.learn (← fetch lits 0) lits
    let s := { s with
      engine := engine.decay.countTowardsLimit
      pending := { s.pending with clause := none, unread := true } }
    s.propagateStep

/-- The literals implied on the present level, newest first, without its decision, whose
variables pass a test. Only the first call after a change reports them. -/
def newlyImplied (s : Solver) (known : Var → Bool) : List Lit × Solver :=
  let t := s.engine.trail
  let implied := if t.isGround then t.currentLevel else t.currentLevel.drop 1
  let answer := if s.pending.unread then implied.reverse.filter fun l => known l.var else []
  (answer, s.setUnread false)

/-- The most active variable of a list. -/
def highestActivity (s : Solver) (vars : List Var) : Checked (Option Var) :=
  s.engine.decisions.mostActive vars

end Solver

end CardSat
