import CardSat.Budget
import CardSat.Journal
import CardSat.Propagation
import CardSat.Settings

set_option autoImplicit false

/-! # The engine

The state of a solver and the steps that its searches are made of: adding a variable, propagating,
opening a decision level, taking levels back, analysing a conflict, learning from it, and keeping
the constraints few.

The parts of an engine are the network of store, trail and watch index, the lists of the database,
the marks of an analysis, and the decisions. They have to fit together, and each step changes
several of them: a constraint that is freed in the store is taken off the lists, its watchers are
marked, and it is cleared as a reason. Nothing of this is checked at run time.
-/

namespace CardSat

/-- How many learnt clauses may be kept, and when that number grows. -/
structure LearntLimit where
  settings : LearningSettings
  limit : Float := 0.0
  /-- The number of conflicts from one growth to the next. -/
  interval : Float := 0.0
  /-- The number of conflicts left until the next growth. -/
  countdown : Int32 := 0

namespace LearntLimit

/-- Starts a search over the given number of constraints. -/
def reset (g : LearntLimit) (clauses : Nat) : LearntLimit :=
  let proportional := clauses.toFloat * g.settings.sizeFactor
  let least := Float.ofInt g.settings.minLimit.toInt
  { g with
    limit := if proportional.isNaN then least else max proportional least
    interval := Float.ofInt g.settings.firstGrowth.toInt
    countdown := g.settings.firstGrowth }

/-- Counts a conflict; the answer is whether the limit grew. -/
def count (g : LearntLimit) : Bool × LearntLimit :=
  let countdown := g.countdown - 1
  if countdown = 0 then
    let interval := g.interval * g.settings.growthInc
    (true, { g with
      interval
      countdown := interval.toInt32
      limit := g.limit * g.settings.sizeInc })
  else (false, { g with countdown })

end LearntLimit

/-- When the constraints were last simplified. -/
structure LastSimplified where
  /-- The number of ground literals then. -/
  assigned : Option Nat := none
  /-- The number of propagations from which simplifying again may pay. -/
  propagations : Nat := 0

/-- The state of a solver. -/
structure Engine where
  settings : EngineSettings
  network : Network
  database : Database
  decisions : Decisions
  analysis : Analysis
  learntLimit : LearntLimit
  lastSimplified : LastSimplified := {}
  solves : Nat := 0
  starts : Nat := 0
  decided : Nat := 0
  conflicts : Nat := 0
  /-- The reports so far, oldest first. -/
  journal : Array Event := #[]

/-- Counters over the life of a solver. -/
structure Statistics where
  solves : Nat
  restarts : Nat
  decisions : Nat
  randomDecisions : Nat
  conflicts : Nat
  propagations : Nat
  /-- The number of literals of the learnt clauses. -/
  learntLits : Nat
  /-- The number of literals left out of them by minimisation. -/
  deletedLits : Nat

namespace Network

/-- The network over no variables. -/
def empty : Network := ⟨.empty, .empty, .empty, 0⟩

end Network

namespace Engine

/-- An engine without variables. -/
def empty (s : Settings) : Checked Engine := do
  return {
    settings := s.engine
    network := .empty
    database := .empty s.database
    decisions := ← Decisions.empty s.decision
    analysis := .empty s.minimisation
    learntLimit := ⟨s.learning, 0.0, 0.0, 0⟩ }

/-- The current assignment. -/
abbrev trail (e : Engine) : Trail := e.network.trail

/-- The constraints in use. -/
abbrev store (e : Engine) : Store := e.network.store

/-- The counters. -/
def statistics (e : Engine) : Statistics where
  solves := e.solves
  restarts := e.starts
  decisions := e.decided
  randomDecisions := e.decisions.randomDecisions
  conflicts := e.conflicts
  propagations := e.network.propagations
  learntLits := e.analysis.learntLits
  deletedLits := e.analysis.derivedLits - e.analysis.learntLits

/-- Adds a report to the journal. -/
def report (e : Engine) (event : Event) : Engine := { e with journal := e.journal.push event }

/-- The literals of the constraint that forced a variable. -/
def reasonLits (e : Engine) (v : Var) : Checked (Option (List Lit)) := do
  match (← e.trail.assigned? v).bind Cell.reason with
  | none => return none
  | some h => return some (← e.store.fetch h).lits.toList

/-- Adds a variable whose first decision takes the given side. -/
def newVar (e : Engine) (negated decision : Bool) : Checked (Var × Engine) := do
  let (v, trail) ← e.trail.newVar
  return (v, { e with
    network := { e.network with trail, index := e.network.index.addVar v }
    decisions := ← e.decisions.addVar v negated decision
    analysis := e.analysis.addVar v })

/-- Propagates until nothing waits or a constraint fails; the answer is the constraint that
failed. -/
def propagate (e : Engine) : Checked (Option Handle × Engine) := do
  let network := e.network
  let e := { e with network := .empty }
  let (failed, network) ← network.propagate
  return (failed, { e with network })

/-- Takes back everything above a level. -/
def cancelUntil (e : Engine) (level : Nat) : Checked Engine := do
  let top := e.trail.level
  let (undone, trail) := e.trail.rewind level
  let decisions ← undone.foldlM (fun (d : Decisions) (n, l) => d.takeBack l (n = top)) e.decisions
  return { e with network := { e.network with trail }, decisions }

/-- Makes a literal true at the current level. -/
def assign (e : Engine) (l : Lit) (reason : Option Handle) : Checked Engine := do
  return { e with network := { e.network with trail := ← e.trail.assign l reason } }

/-- Opens a decision level and makes a literal true there. -/
def decideLit (e : Engine) (l : Lit) : Checked Engine := do
  let trail ← e.trail.openLevel.assign l none
  return { e with network := { e.network with trail } }

/-- Analyses a failed constraint; what took part in the conflict becomes more active. -/
def analyze (e : Engine) (failed : Handle) : Checked (Lesson × Engine) := do
  let (x, analysis) ← e.analysis.analyze e.store e.trail failed
  let decisions ← x.vars.foldlM Decisions.bump e.decisions
  let (database, store) ← x.constraints.foldlM (fun (db, store) h => Database.bump db store h)
    (e.database, e.store)
  return (x.lesson, { e with
    network := { e.network with store }, database, decisions, analysis })

/-- Puts a stored constraint on watch. -/
def watch (e : Engine) (h : Handle) : Checked Engine := do
  let index ← e.network.index.watch (← e.store.fetch h) h
  return { e with network := { e.network with index } }

/-- Stores a learnt clause and makes its first literal true; a clause of one literal is kept
as a fact. -/
def learn (e : Engine) (l : Lit) (lits : Array Lit) : Checked Engine := do
  if lits.size = 1 then
    let e := { e with database := e.database.addUnit l }
    e.assign l none
  else
    let (h, database, store) ← e.database.learn e.store lits
    let e := { e with database, network := { e.network with store } }
    (← e.watch h).assign l (some h)

/-- Makes later bumps weigh more. -/
def decay (e : Engine) : Engine :=
  { e with decisions := e.decisions.decay, database := e.database.decay }

/-- Where the search stands, for a report. -/
def progress (e : Engine) : Progress where
  conflicts := e.conflicts
  freeVars := e.decisions.decisionVars - e.trail.groundSize
  clauses := e.database.counts.given
  clauseLits := e.database.counts.givenLits
  limit := e.learntLimit.limit.toUInt64.toNat
  learnts := e.database.counts.learnts
  litsPerLearnt := e.database.counts.learntLits.toFloat / e.database.counts.learnts.toFloat
  estimate := e.trail.progress

/-- Counts a conflict towards the growth of the limit of learnt clauses. -/
def countTowardsLimit (e : Engine) : Engine :=
  let (grew, learntLimit) := e.learntLimit.count
  let e := { e with learntLimit }
  if grew then e.report (.progress e.progress) else e

/-! ## Keeping the constraints few -/

/-- Takes the constraints that a sweep removed off the watch index lazily. -/
def afterSweep (e : Engine) (db : Database) (s : Database.Sweep) : Checked Engine := do
  let index ← s.removed.foldlM (fun (w : WatchIndex) x => w.markStale x.2) e.network.index
  return { e with
    database := db
    network := { e.network with store := s.store, trail := s.trail, index } }

/-- Removes constraints satisfied at the ground level, if there are new ground literals and
enough propagations have passed. Given constraints are only touched outside the incremental
mode. -/
def simplify (e : Engine) : Checked Engine := do
  if !e.trail.isGround || e.lastSimplified.assigned == some e.trail.size
      || e.network.propagations < e.lastSimplified.propagations then return e
  let counts := e.database.counts
  let rewriting := !e.settings.incremental
  let (db, sweep) ← e.database.removeSatisfied e.store e.trail rewriting rewriting
  let e ← e.afterSweep db sweep
  let left := e.database.counts
  let e := e.report (.simplified counts.given left.given counts.learnts left.learnts)
  return { e with
    decisions := ← e.decisions.rebuild e.trail
    lastSimplified := ⟨some e.trail.size,
      e.network.propagations + (left.givenLits + left.learntLits)⟩ }

/-- Gives up learnt clauses when there are more than the limit and the trail allow. -/
def reduce (e : Engine) : Checked Engine := do
  let before := e.database.learnts.size
  if before.toFloat ≥ e.learntLimit.limit + e.trail.size.toFloat then
    let (db, sweep) ← e.database.reduce e.store e.trail
    let e ← e.afterSweep db sweep
    return e.report (.reduced before e.database.learnts.size)
  else return e

end Engine

end CardSat
