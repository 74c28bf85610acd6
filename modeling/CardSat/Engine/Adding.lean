import CardSat.Engine

set_option autoImplicit false

/-! # Adding constraints

A constraint is added at the ground level. Literals that have a value there are taken into
account at once, and what is left of the constraint is stored, or assigned if it is a fact.
Every function answers false if the constraints cannot be satisfied any more.
-/

namespace CardSat

namespace Engine

/-- Makes the literals of a list false that have no value, up to the first true one; the
answer is whether there is a true one. -/
def refute : (lits : List Lit) → Engine → Checked (Bool × Engine)
  | [], e => return (false, e)
  | l :: rest, e => do
    match ← e.trail.value l with
    | .yes => return (true, e)
    | .unset => refute rest (← e.assign l.neg none)
    | .no => refute rest e

/-- Whether propagation shows that a clause follows from the constraints: its literals cannot
all be false. Everything tried is taken back. -/
def implies (e : Engine) (lits : List Lit) : Checked (Bool × Engine) := do
  require e.trail.isGround .aboveGround
  let e := { e with network := { e.network with trail := e.trail.openLevel } }
  match ← refute lits e with
  | (true, e) => return (true, ← e.cancelUntil 0)
  | (false, e) =>
    let (failed, e) ← e.propagate
    return (failed.isSome, ← e.cancelUntil 0)

/-- Whether two neighbours of a list are complementary. In a sorted list complementary
literals are neighbours. -/
def complementaryNeighbours : List Lit → Bool
  | a :: b :: rest => a.neg = b || complementaryNeighbours (b :: rest)
  | _ => false

/-- Propagates after facts were added. -/
def propagateFacts (e : Engine) : Checked (Bool × Engine) := do
  let (failed, e) ← e.propagate
  return (failed.isNone, e)

/-- Adds a fact. -/
def addFact (e : Engine) (l : Lit) : Checked Engine := do
  let e := { e with database := e.database.addUnit l }
  e.assign l none

/-- Stores a clause of at least two literals without values. -/
def storeClause (e : Engine) (lits : List Lit) : Checked Engine := do
  let (h, database, store) ← e.database.addClause e.store lits.toArray
  let e := { e with database, network := { e.network with store } }
  e.watch h

/-- Adds what is left of a clause. False and repeated literals are left out; a clause with a
true literal or with complementary literals holds anyway. -/
def addReduced (e : Engine) (lits : List Lit) : Checked (Bool × Engine) := do
  let left ← (Lit.sortDistinct lits).filterM fun l => return !(← e.trail.isFalse l)
  if complementaryNeighbours left || (← left.anyM e.trail.isTrue) then return (true, e)
  match left with
  | [] => return (false, e)
  | [l] => (← e.addFact l).propagateFacts
  | left => return (true, ← e.storeClause left)

/-- Adds a clause; if the settings say so, only one that does not follow by propagation. -/
def addClause (e : Engine) (lits : List Lit) : Checked (Bool × Engine) := do
  require e.trail.isGround .aboveGround
  if e.settings.checkImplied then
    match ← e.implies lits with
    | (true, e) => return (true, e)
    | (false, e) => e.addReduced lits
  else e.addReduced lits

/-- What is left of an at-most constraint while its literals are gone through. -/
structure Remainder where
  /-- The number of literals that may still be true, a signed 64-bit word. -/
  bound : Int64
  lits : Array Lit := #[]
  /-- The last literal that was kept or paired. -/
  last : Option Lit := none

/-- Takes one literal of a sorted list into account. A true literal uses up the bound, and so
does a complementary pair, of which exactly one literal is true; false and repeated literals
are left out. -/
def Remainder.take (t : Trail) (r : Remainder) (l : Lit) : Checked Remainder := do
  if ← t.isTrue l then return { r with bound := r.bound - 1 }
  else if r.last = some l.neg then
    return { bound := r.bound - 1, lits := r.lits.pop, last := some l }
  else if (← t.isFalse l) || r.last = some l then return r
  else return { r with lits := r.lits.push l, last := some l }

/-- Adds an at-most constraint. -/
def addAtMost (e : Engine) (lits : List Lit) (bound : Nat) : Checked (Bool × Engine) := do
  require e.trail.isGround .aboveGround
  let r ← (Lit.sort lits).foldlM (Remainder.take e.trail) { bound := Int64.ofNat bound }
  if r.bound.toInt ≥ r.lits.size then return (true, e)
  if r.bound < 0 then return (false, e)
  if r.bound = 0 then
    let e ← r.lits.foldlM (fun e l => addFact e l.neg) e
    e.propagateFacts
  else
    let (h, database, store) ← e.database.addAtMost e.store r.lits r.bound.toInt.toNat
    let e := { e with database, network := { e.network with store } }
    return (true, ← e.watch h)

/-- Propagates the facts of the ground level and simplifies the constraints. -/
def preprocess (e : Engine) : Checked (Bool × Engine) := do
  require e.trail.isGround .aboveGround
  match ← e.propagate with
  | (none, e) => return (true, ← e.simplify)
  | (some _, e) => return (false, e)

end Engine

end CardSat
