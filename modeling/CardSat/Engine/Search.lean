import CardSat.Engine

set_option autoImplicit false

/-! # Search

A search alternates propagation with decisions. The assumptions are decided first, each on a
level of its own. When a constraint fails, its lesson is learnt and the search goes on at the
level where the lesson forces a literal; when there is nothing left to decide, the assignment
is a model. After a number of conflicts the search restarts, keeping what it has learnt.

* `stretch` searches from one conflict to the next,
* `interval` from one restart to the next,
* `search` until there is an answer.

Between two restarts every conflict enlarges the trail in the lexicographic order of its
positions, read as implied, decided or empty, so there are fewer than `3 ^ n` of them.
-/

namespace CardSat

/-- The answer of a search. -/
inductive Answer where
  /-- The assumptions and the constraints have this model. -/
  | sat (model : Model)
  /-- They have none; the assumptions listed are to blame, or the constraints alone if the
  list is empty. -/
  | unsat (core : List Lit)
  /-- The budget was used up when this part of the search was done. -/
  | interrupted (progress : Float)
  /-- The handler gave up. -/
  | canceled

/-- What a search is asked to do. -/
structure Task where
  restart : RestartStrategy
  budget : Budget
  assumptions : Array Lit
  /-- The number of conflicts when the search started. -/
  baseConflicts : Nat
  /-- The number of propagations when the search started. -/
  basePropagations : Nat

/-- What to decide next. -/
inductive Choosing where
  | decide (l : Lit)
  /-- Nothing is left to decide. -/
  | complete
  /-- An assumption is false. -/
  | failed (core : List Lit)

/-- Where a stretch of search ends. -/
inductive Pause where
  | conflict (failed : Handle)
  | restart
  | answer (a : Answer)

namespace Engine

/-- Looks at the last `n` assumptions from the current level on. A true one gets an empty
level; one without a value is the next decision. -/
def chooseAssumption (assumptions : Array Lit) : (n : Nat) → Engine →
    Checked (Option Choosing × Engine)
  | 0, e => return (none, e)
  | n + 1, e => do
    match assumptions[e.trail.level]? with
    | none => return (none, e)
    | some p =>
      match ← e.trail.value p with
      | .yes =>
        let e := { e with network := { e.network with trail := e.trail.openLevel } }
        chooseAssumption assumptions n e
      | .no =>
        let (found, analysis) ← e.analysis.failedAssumptions e.store e.trail p.neg
        return (some (.failed (found.map Lit.neg)), { e with analysis })
      | .unset => return (some (.decide p), e)

/-- Chooses the next decision. -/
def choose (e : Engine) (assumptions : Array Lit) : Checked (Choosing × Engine) := do
  match ← chooseAssumption assumptions (assumptions.size - e.trail.level) e with
  | (some c, e) => return (c, e)
  | (none, e) =>
    let (next, decisions) ← e.decisions.pick e.trail
    let e := { e with decisions }
    match next with
    | none => return (.complete, e)
    | some l => return (.decide l, { e with decided := e.decided + 1 })

/-- Searches to the next conflict, or to a restart once there have been `limit` conflicts, or
to an answer. Every round but the last decides a variable. -/
def stretch (task : Task) (limit : Nat) : (rounds : Nat) → Engine → Checked (Pause × Engine)
  | 0, _ => throw .exhausted
  | rounds + 1, e => do
    match ← e.propagate with
    | (some h, e) => return (.conflict h, { e with conflicts := e.conflicts + 1 })
    | (none, e) =>
      if !task.budget.within (e.conflicts - task.baseConflicts)
          (e.network.propagations - task.basePropagations) then
        return (.answer (.interrupted e.trail.progress), ← e.cancelUntil 0)
      if e.conflicts ≥ limit then return (.restart, ← e.cancelUntil 0)
      let e ← (← e.simplify).reduce
      match ← e.choose task.assumptions with
      | (.failed core, e) => return (.answer (.unsat core), e)
      | (.complete, e) => return (.answer (.sat e.trail.model), e)
      | (.decide l, e) => stretch task limit rounds (← e.decideLit l)

/-- Learns from a conflict; the answer is false if the constraints cannot be satisfied. -/
def learnFrom (e : Engine) (failed : Handle) : Checked (Bool × Engine) := do
  let (lesson, e) ← e.analyze failed
  let e ← match lesson with
    | .unsatisfiable => return (false, e)
    | .unit l => do (← e.cancelUntil 0).learn l #[l]
    | .clause level lits => do (← e.cancelUntil level).learn (← fetch lits 0) lits
  return (true, e.decay.countTowardsLimit)

section

variable {m : Type → Type} [Monad m]

/-- Searches to the next restart or to an answer, through at most `rounds` stretches. -/
def interval (task : Task) (handler : Handler m) (limit : Nat) : (rounds : Nat) → Engine →
    ExceptT Fault m (Option Answer × Engine)
  | 0, _ => throw .exhausted
  | rounds + 1, e => do
    match ← e.stretch task limit (e.trail.varCount + 2) with
    | (.restart, e) => return (none, e)
    | (.answer a, e) => return (some a, e)
    | (.conflict h, e) =>
      if ← handler.onConflict then
        match ← e.learnFrom h with
        | (false, e) => return (some (.unsat []), e)
        | (true, e) => interval task handler limit rounds e
      else return (some .canceled, e)

/-- The number of conflicts at which an interval of the given length ends, a 64-bit word. -/
def conflictLimit (e : Engine) (length : UInt64) : Nat := (e.conflicts + length.toNat) % UInt64.size

/-- Searches for an answer after `restarts` restarts, through at most `rounds` intervals. -/
def intervals (task : Task) (handler : Handler m) : (rounds restarts : Nat) → Engine →
    ExceptT Fault m (Answer × Engine)
  | 0, _, _ => throw .exhausted
  | rounds + 1, restarts, e => do
    let length ← task.restart.interval restarts
    let e := { e with starts := e.starts + 1 }
    match ← e.interval task handler (e.conflictLimit length) (Nat.pow 3 e.trail.varCount + 1) with
    | (some a, e) => return (a, ← e.cancelUntil 0)
    | (none, e) => intervals task handler rounds (restarts + 1) e

/-- Searches for a model of the constraints and the assumptions. The restart counter is a
32-bit word. -/
def search (e : Engine) (restart : RestartStrategy) (budget : Budget) (handler : Handler m)
    (assumptions : List Lit) : ExceptT Fault m (Answer × Engine) := do
  let e := e.report .searchStarted
  let e := { e with
    solves := e.solves + 1
    learntLimit := e.learntLimit.reset e.database.counts.given }
  let task : Task :=
    ⟨restart, budget, assumptions.toArray, e.conflicts, e.network.propagations⟩
  let (a, e) ← e.intervals task handler restartRange 0
  return (a, e.report .searchEnded)

end

end Engine

end CardSat
