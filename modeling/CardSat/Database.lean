import CardSat.Constraint.Status
import CardSat.Store

set_option autoImplicit false

/-! # The constraint database

Lists of the constraints in the store: the given ones, the learnt clauses, and the facts of one
literal, each in the order in which they were added, with counts of constraints and literals. Learnt
clauses are numbered, so that a snapshot can tell which of them are younger than itself whatever has
been removed meanwhile.

Main operations: `learn`, `bump`, `reduce`, `removeSatisfied` and `truncate`. An operation that
removes constraints frees them in the store, clears them as reasons on the trail, and answers with
the constraints it removed. Their watchers are left to the caller.
-/

namespace CardSat

/-- How the database treats its constraints. -/
structure DatabaseSettings where
  /-- Whether satisfied given constraints may be removed. -/
  removeSatisfied : Bool := true
  /-- The factor by which old activities lose weight. -/
  clauseDecay : Float := 0.999

/-- The numbers of constraints and of their literals. -/
structure Counts where
  given : Nat := 0
  learnts : Nat := 0
  givenLits : Nat := 0
  learntLits : Nat := 0

namespace Counts

/-- Counts a constraint. -/
def add (n : Counts) (c : Constraint) : Counts :=
  if c.isLearnt then { n with learnts := n.learnts + 1, learntLits := n.learntLits + c.size }
  else { n with given := n.given + 1, givenLits := n.givenLits + c.size }

/-- Takes a constraint out of the count. -/
def remove (n : Counts) (c : Constraint) : Counts :=
  if c.isLearnt then { n with learnts := n.learnts - 1, learntLits := n.learntLits - c.size }
  else { n with given := n.given - 1, givenLits := n.givenLits - c.size }

end Counts

/-- The constraints in use by origin. -/
structure Database where
  settings : DatabaseSettings
  /-- What the next bump adds to an activity. -/
  increment : Float
  given : Array Handle
  learnts : Array Handle
  /-- Facts of one literal, kept to be assigned again when a snapshot is loaded. -/
  units : Array Lit
  /-- The number of the next learnt clause. -/
  nextSerial : Nat
  counts : Counts

/-- The activity above which all activities are scaled down. -/
def clauseActivityLimit : Float := 1e20

/-- The factor by which activities of clauses are scaled down. -/
def clauseActivityScale : Float := 1e-20

namespace Database

/-- The database without constraints. -/
def empty (settings : DatabaseSettings) : Database := ⟨settings, 1.0, #[], #[], #[], 0, {}⟩

/-! ## Adding -/

/-- Stores a given constraint. -/
def addGiven (db : Database) (store : Store) (kind : Kind) (lits : Array Lit) :
    Checked (Handle × Database × Store) := do
  let (h, store) ← store.alloc kind lits
  return (h, { db with given := db.given.push h, counts := db.counts.add ⟨kind, lits⟩ }, store)

/-- Stores a given clause. -/
def addClause (db : Database) (store : Store) (lits : Array Lit) :
    Checked (Handle × Database × Store) :=
  db.addGiven store .clause lits

/-- Stores a given at-most constraint; its bound has to be above zero and below its length. -/
def addAtMost (db : Database) (store : Store) (lits : Array Lit) (bound : Nat) :
    Checked (Handle × Database × Store) := do
  require (0 < bound ∧ bound < lits.size) .boundOutOfRange
  db.addGiven store (.atMost bound) lits

/-- Keeps a fact. -/
def addUnit (db : Database) (l : Lit) : Database := { db with units := db.units.push l }

/-! ## Activities -/

/-- Multiplies the activity of a learnt clause. -/
def scaleActivity (store : Store) (h : Handle) (factor : Float) : Checked Store := do
  let c ← store.fetch h
  match c.kind with
  | .learnt a s => return store.put h { c with kind := .learnt (a * factor) s }
  | _ => return store

/-- Raises the activity of a learnt clause. When it passes the limit, all activities and the
increment are scaled down. -/
def bump (db : Database) (store : Store) (h : Handle) : Checked (Database × Store) := do
  let c ← store.fetch h
  match c.kind with
  | .learnt a s =>
    let raised := a + db.increment
    let store := store.put h { c with kind := .learnt raised s }
    if raised > clauseActivityLimit then
      let store ← db.learnts.foldlM (fun store h => scaleActivity store h clauseActivityScale) store
      return ({ db with increment := db.increment * clauseActivityScale }, store)
    else return (db, store)
  | _ => return (db, store)

/-- Makes later bumps weigh more. -/
def decay (db : Database) : Database :=
  { db with increment := db.increment * (1.0 / db.settings.clauseDecay) }

/-- Stores a learnt clause and raises its activity for the first time. -/
def learn (db : Database) (store : Store) (lits : Array Lit) :
    Checked (Handle × Database × Store) := do
  let kind : Kind := .learnt 0.0 db.nextSerial
  let (h, store) ← store.alloc kind lits
  let db := { db with
    nextSerial := db.nextSerial + 1
    learnts := db.learnts.push h
    counts := db.counts.add ⟨kind, lits⟩ }
  let (db, store) ← db.bump store h
  return (h, db, store)

/-! ## Removing -/

/-- Where a removal has got to: what is left, and what was removed, oldest first. -/
structure Sweep where
  store : Store
  trail : Trail
  counts : Counts
  kept : Array Handle
  removed : Array (Handle × Constraint)

namespace Sweep

/-- A sweep that has removed nothing yet. -/
def start (db : Database) (store : Store) (trail : Trail) : Sweep :=
  ⟨store, trail, db.counts, #[], #[]⟩

/-- Keeps a constraint. -/
def keep (s : Sweep) (h : Handle) : Sweep := { s with kept := s.kept.push h }

/-- Frees a constraint and clears it where it is a reason. -/
def drop (s : Sweep) (h : Handle) (c : Constraint) : Checked Sweep := do
  let trail ← c.lits.toList.foldlM (fun (t : Trail) l => do
    if ← t.isReasonFor h l then t.clearReason l.var else return t) s.trail
  return { s with
    store := ← s.store.free h
    trail
    counts := s.counts.remove c
    removed := s.removed.push (h, c) }

end Sweep

/-- The order in which learnt clauses are given up: the less active first, those of two
literals last. -/
def givenUpBefore (a b : Constraint) : Ordering :=
  if a.size = 2 ∧ b.size = 2 then .eq
  else if a.size = 2 then .gt
  else if b.size = 2 then .lt
  else if a.activity < b.activity then .lt
  else if a.activity > b.activity then .gt
  else .eq

/-- Gives up the less active half of the learnt clauses and those below a limit of activity,
but no clause of two literals and none that is the reason of its first literal. -/
def reduce (db : Database) (store : Store) (trail : Trail) : Checked (Database × Sweep) := do
  let learnts ← db.learnts.toList.mapM fun h => return (h, ← store.fetch h)
  let ranked := learnts.mergeSort fun a b => (givenUpBefore a.2 b.2).isLE
  let half := ranked.length / 2
  let limit := db.increment / ranked.length.toFloat
  let sweep ← ranked.zipIdx.foldlM (fun (s : Sweep) ((h, c), i) => do
    let locked ← if c.size > 2 then s.trail.isReasonFor h (← c.head) else pure true
    if !locked && (i < half || c.activity < limit) then s.drop h c
    else return s.keep h) (Sweep.start db store trail)
  return ({ db with learnts := sweep.kept, counts := sweep.counts }, sweep)

/-- Removes a constraint if it is satisfied. With `strengthen`, a clause that is not satisfied
loses its false literals from the third on. -/
def sweepSatisfied (strengthen : Bool) (s : Sweep) (h : Handle) : Checked Sweep := do
  let c ← s.store.fetch h
  if ← c.isSatisfied s.trail then s.drop h c
  else if strengthen && !c.isAtMost then
    let c' ← c.retainSuffix 2 fun l => return !(← s.trail.isFalse l)
    return { s with store := s.store.put h c', counts := (s.counts.remove c).add c' }.keep h
  else return s.keep h

/-- Removes the learnt clauses satisfied at the ground level and, with `givenToo`, the given
constraints as well, if the settings allow it. -/
def removeSatisfied (db : Database) (store : Store) (trail : Trail)
    (givenToo strengthen : Bool) : Checked (Database × Sweep) := do
  require trail.isGround .aboveGround
  let sweep ← db.learnts.foldlM (sweepSatisfied strengthen) (Sweep.start db store trail)
  let db := { db with learnts := sweep.kept, counts := sweep.counts }
  if givenToo && db.settings.removeSatisfied then
    let sweep ← db.given.foldlM (sweepSatisfied strengthen) { sweep with kept := #[] }
    return ({ db with given := sweep.kept, counts := sweep.counts }, sweep)
  else return (db, sweep)

/-- Goes back to the first `given` given constraints, the learnt clauses numbered below
`serial` and the first `units` facts. -/
def truncate (db : Database) (store : Store) (trail : Trail) (given serial units : Nat) :
    Checked (Database × Sweep) := do
  let doomed := (db.given.toList.drop given).reverse
  let sweep ← doomed.foldlM (fun (s : Sweep) h => do s.drop h (← s.store.fetch h))
    (Sweep.start db store trail)
  let sweep ← db.learnts.foldlM (fun (s : Sweep) h => do
    let c ← s.store.fetch h
    match c.serial? with
    | some n => if n < serial then return s.keep h else s.drop h c
    | none => return s.keep h) sweep
  return ({ db with
    given := db.given.take given
    learnts := sweep.kept
    counts := sweep.counts
    nextSerial := min db.nextSerial serial
    units := db.units.take units }, sweep)

end Database

end CardSat
