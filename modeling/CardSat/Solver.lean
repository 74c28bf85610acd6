import CardSat.Engine.Adding
import CardSat.Engine.Rollback
import CardSat.Engine.Search
import CardSat.Receiver

set_option autoImplicit false

/-! # The solver

Decides whether clauses and cardinality constraints have a common model, under assumptions that
differ from call to call. Constraints can be added between calls, and a snapshot of the problem can
be saved and loaded again.

Main operations: `newVar`, `addClause`, `addAtMost`, `preprocess`, `solve`, `save`, `load`.

A solver is `ok` until its constraints are found to contradict each other. From then on a call that
would add to it or search answers at once and does nothing, until a snapshot from an earlier time is
loaded.
-/

namespace CardSat

/-- What a failed decision left to be learnt by a caller who directs the search. -/
structure Pending where
  /-- The clause to be learnt. -/
  clause : Option (Array Lit) := none
  /-- The level at which it forces its first literal. -/
  level : Option Nat := none
  /-- Whether literals were implied that the caller has not asked for. -/
  unread : Bool := false

/-- A solver. Once `ok` is false, the constraints are known to have no model. -/
structure Solver where
  settings : Settings
  ok : Bool := true
  engine : Engine
  pending : Pending := {}

namespace Solver

/-- A solver without variables. -/
def new (settings : Settings) : Checked Solver := do
  return { settings, engine := ← Engine.empty settings }

/-- Drops every variable and constraint; the settings stay. -/
def reset (s : Solver) : Checked Solver := new s.settings

/-! ## Adding to the problem -/

/-- Adds a variable. -/
def newVar (s : Solver) (negated decision : Bool) : Checked (Var × Solver) := do
  let (v, engine) ← s.engine.newVar negated decision
  return (v, { s with engine })

/-- Runs a step of the engine that may find that there is no model; nothing happens if that
is known already. -/
def whileOk (s : Solver) (step : Engine → Checked (Bool × Engine)) : Checked (Bool × Solver) := do
  if s.ok then
    let (ok, engine) ← step s.engine
    return (ok, { s with ok, engine })
  else return (false, s)

/-- Adds a clause. -/
def addClause (s : Solver) (lits : List Lit) : Checked (Bool × Solver) :=
  s.whileOk fun e => e.addClause lits

/-- Adds an at-most constraint. -/
def addAtMost (s : Solver) (lits : List Lit) (bound : Nat) : Checked (Bool × Solver) :=
  s.whileOk fun e => e.addAtMost lits bound

instance : Receiver Solver := ⟨newVar, addClause, addAtMost⟩

/-- Propagates the facts and simplifies the constraints. -/
def preprocess (s : Solver) : Checked (Bool × Solver) := s.whileOk Engine.preprocess

/-! ## Solving -/

/-- Searches for a model that makes the assumptions true, within a budget and accompanied by a
handler. -/
def solve {m : Type → Type} [Monad m] (s : Solver) (budget : Budget) (assumptions : List Lit)
    (handler : Handler m) : ExceptT Fault m (Answer × Solver) := do
  handler.started
  let (a, s) ← if s.ok then do
      let (a, engine) ← s.engine.search s.settings.restart budget handler assumptions
      let ok := match a with
        | .unsat [] => false
        | _ => true
      pure (a, { s with ok, engine })
    else pure (Answer.unsat [], s)
  handler.finished
  return (a, s)

/-! ## Snapshots -/

/-- Takes a snapshot. -/
def save (s : Solver) : Checked (Snapshot × Solver) := do
  require s.engine.settings.incremental .saveUnavailable
  let snapshot ← s.engine.snapshot s.ok
  return (snapshot, { s with engine := s.engine.report (.saved snapshot) })

/-- Goes back to a snapshot. -/
def load (s : Solver) (snapshot : Snapshot) : Checked Solver := do
  require s.engine.settings.incremental .loadUnavailable
  let (replayed, engine) ← s.engine.rollback snapshot
  let ok := snapshot.ok && replayed
  return { s with ok, engine := engine.report (.loaded snapshot ok), pending := {} }

/-! ## Reading -/

/-- The number of variables. -/
def varCount (s : Solver) : Nat := s.engine.trail.varCount

/-- The number of given constraints in use. -/
def clauseCount (s : Solver) : Nat := s.engine.database.counts.given

/-- The number of learnt clauses in use. -/
def learntCount (s : Solver) : Nat := s.engine.database.counts.learnts

/-- The counters. -/
def statistics (s : Solver) : Statistics := s.engine.statistics

/-- Sets the literals to be decided first. -/
def setSelectionOrder (s : Solver) (order : List Lit) : Solver :=
  { s with engine := { s.engine with decisions := s.engine.decisions.setOrder order } }

/-- The value of a literal. -/
def value (s : Solver) (l : Lit) : Checked Truth := s.engine.trail.value l

/-- The level at which a variable got its value. -/
def level (s : Solver) (v : Var) : Checked (Option Nat) := do
  return (← s.engine.trail.assigned? v).map Cell.level

/-- Whether a literal is true whatever is decided. -/
def isForced (s : Solver) (l : Lit) : Checked Bool := do
  return (← s.value l) == .yes && (← s.level l.var) == some 0

/-- The literals of the constraint that forced a variable; none for decisions, facts and
variables without a value. -/
def reason (s : Solver) (v : Var) : Checked (Option (List Lit)) := s.engine.reasonLits v

/-- The activity of a variable. -/
def activity (s : Solver) (v : Var) : Checked Float := s.engine.decisions.activity v

end Solver

end CardSat
