import CardSat.Engine

set_option autoImplicit false

/-! # Rolling back

A snapshot holds the numbers of variables, constraints, learnt clauses and facts at the ground
level. Rolling back keeps that many of each, the oldest ones, and assigns the facts anew.

Nothing else is restored. Activities, the sides that variables remember and the learnt clauses that
were given up in between stay as they are.
-/

namespace CardSat

namespace Engine

/-- The present numbers, for a solver that is `ok` or not. -/
def snapshot (e : Engine) (ok : Bool) : Checked Snapshot := do
  require e.trail.isGround .aboveGround
  return {
    ok
    vars := e.trail.varCount
    clauses := e.database.given.size
    learnts := e.database.nextSerial
    units := e.database.units.size }

/-- Assigns facts again, propagating after each; the answer is false at the first one that
fails. -/
def replay : (facts : List Lit) → Engine → Checked (Bool × Engine)
  | [], e => return (true, e)
  | l :: rest, e => do
    let (holds, trail) ← e.trail.tryAssign l none
    let e := { e with network := { e.network with trail } }
    if !holds then return (false, e)
    match ← e.propagate with
    | (none, e) => replay rest e
    | (some _, e) => return (false, e)

/-- Takes back every assignment and everything younger than a snapshot. -/
def discardSince (e : Engine) (s : Snapshot) : Checked Engine := do
  let (undone, trail) := e.trail.rewindAll
  let decisions ← undone.foldlM (fun (d : Decisions) l => d.takeBack l true) e.decisions
  let (database, sweep) ← e.database.truncate e.store trail s.clauses s.learnts s.units
  let index ← sweep.removed.foldlM (fun (w : WatchIndex) (h, c) => w.unwatch c h) e.network.index
  let vars := min s.vars trail.varCount
  let trail ← sweep.trail.truncateVars vars
  let e := { e with
    network := { e.network with
      store := sweep.store, trail, index := WatchIndex.truncateVars index vars }
    database
    analysis := e.analysis.truncateVars vars
    decisions := ← decisions.truncateVars vars trail
    lastSimplified := {} }
  return e.report
    (.rolledBack vars database.given.size database.learnts.size database.units.size)

/-- Goes back to a snapshot. The answer is whether the constraints may be satisfiable. -/
def rollback (e : Engine) (s : Snapshot) : Checked (Bool × Engine) := do
  let e ← e.discardSince s
  if s.ok then replay e.database.units.toList e else return (false, e)

end Engine

end CardSat
