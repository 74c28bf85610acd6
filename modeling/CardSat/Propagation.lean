import CardSat.Constraint.Status
import CardSat.WatchIndex

set_option autoImplicit false

/-! # Propagation

A clause whose other literals are false forces its last one, and an at-most constraint that
has reached its bound forces the rest of its literals to be false. `Network.propagate` draws
these conclusions for the literals waiting on the trail until none is left or some constraint
fails.

When a literal becomes true, `visit` looks at one constraint on its line: the constraint
stays on watch there, moves its watch to another literal, forces literals, or fails.
`visitAll` goes through a whole line and stops at the first failure.
-/

namespace CardSat

/-- The constraints, the assignment and the index between them. -/
structure Network where
  store : Store
  trail : Trail
  index : WatchIndex
  /-- The number of literals propagated so far. -/
  propagations : Nat

/-- What becomes of an at-most constraint when a watched literal became true. -/
inductive AtMostChange where
  /-- Nothing has to change. -/
  | keep
  /-- The watch moves to another literal of the rearranged constraint. -/
  | move (l : Lit) (c : Constraint)
  /-- The bound is reached. -/
  | force
  /-- The bound is exceeded. -/
  | fail

namespace Constraint

/-- Goes through the watched literals from position `i` on, `falses` and `trues` of the ones
before being false and true. The constraint needs no attention once all watched literals but
one are false. Where the scan meets the literal `p` itself, its watch moves to an unwatched
literal that is not true, if there is one. -/
def atMostScan (c : Constraint) (t : Trail) (p : Lit) :
    (lits : List Lit) → (i falses trues : Nat) → Checked AtMostChange
  | [], _, _, trues => return if trues > 1 then .fail else .force
  | l :: rest, i, falses, trues => do
    match ← t.value l with
    | .unset => atMostScan c t p rest (i + 1) falses trues
    | .no =>
      if falses + 1 ≥ c.watchers - 1 then return .keep
      else atMostScan c t p rest (i + 1) (falses + 1) trues
    | .yes =>
      if trues + 1 > c.size - c.watchers + 1 then return .fail
      else if l = p then
        match ← c.pull i fun q => return !(← t.isTrue q) with
        | some (l, c) => return .move l c
        | none => atMostScan c t p rest (i + 1) falses (trues + 1)
      else atMostScan c t p rest (i + 1) falses (trues + 1)

/-- What an at-most constraint does when its watched literal `p` became true. -/
def atMostChange (c : Constraint) (t : Trail) (p : Lit) : Checked AtMostChange := do
  atMostScan c t p (← c.watched) 0 0 0

end Constraint

namespace Trail

/-- Makes the literals of a list false that are not, except `p`; `h` is the reason. -/
def forceFalse (t : Trail) (p : Lit) (h : Handle) (lits : List Lit) : Checked Trail :=
  lits.foldlM (fun t l => do
    if l = p then return t
    else if ← t.isFalse l then return t
    else t.assign l.neg (some h)) t

end Trail

/-- What becomes of a watcher that was visited. -/
inductive Visit where
  /-- It stays in its line. -/
  | stay (w : Watcher)
  /-- It has left the line. -/
  | leave
  /-- It stays in its line, and its constraint fails. -/
  | fail (w : Watcher)

namespace Network

/-- Visits an at-most constraint whose watched literal `p` became true. -/
def visitAtMost (n : Network) (p : Lit) (w : Watcher) (c : Constraint) :
    Checked (Visit × Network) := do
  match ← c.atMostChange n.trail p with
  | .keep => return (.stay w, n)
  | .move l c =>
    return (.leave, { n with store := n.store.put w.handle c, index := ← n.index.push l w })
  | .force =>
    return (.stay w, { n with trail := ← n.trail.forceFalse p w.handle (← c.watched) })
  | .fail => return (.fail w, n)

/-- Visits a clause whose watched literal, the complement of `p`, became false. That literal
is brought to position one; the other watched literal becomes the blocker. -/
def visitClause (n : Network) (p : Lit) (w : Watcher) (c : Constraint) :
    Checked (Visit × Network) := do
  let c ← if (← c.head) = p.neg then c.swap 0 1 else pure c
  let first ← c.head
  let w' : Watcher := ⟨w.handle, some first⟩
  let satisfied ← if some first ≠ w.blocker then n.trail.isTrue first else pure false
  if satisfied then
    return (.stay w', { n with store := n.store.put w.handle c })
  match ← c.pull 1 fun q => return !(← n.trail.isFalse q) with
  | some (l, c) =>
    return (.leave, { n with store := n.store.put w.handle c, index := ← n.index.push l.neg w' })
  | none =>
    let n := { n with store := n.store.put w.handle c }
    if ← n.trail.isFalse first then return (.fail w', n)
    else return (.stay w', { n with trail := ← n.trail.assign first (some w.handle) })

/-- Visits one watcher on the line of `p`. A true blocker shows that the constraint is
satisfied without looking at it; a watcher of a freed constraint is dropped. -/
def visit (n : Network) (p : Lit) (w : Watcher) : Checked (Visit × Network) := do
  let blocked ← match w.blocker with
    | some b => n.trail.isTrue b
    | none => pure false
  if blocked then return (.stay w, n)
  match n.store.get? w.handle with
  | none => return (.leave, n)
  | some c => if c.isAtMost then n.visitAtMost p w c else n.visitClause p w c

/-- Visits watchers on the line of `p` until one fails. The answer gives the watchers that
stay, after those already `kept`, and the constraint that failed. -/
def visitAll (p : Lit) : (line : List Watcher) → (kept : Array Watcher) → Network →
    Checked (Array Watcher × Option Handle × Network)
  | [], kept, n => return (kept, none, n)
  | w :: rest, kept, n => do
    match ← n.visit p w with
    | (.stay w, n) => visitAll p rest (kept.push w) n
    | (.leave, n) => visitAll p rest kept n
    | (.fail w, n) => return (kept.push w ++ rest.toArray, some w.handle, n)

/-- Propagates one literal; the answer is the constraint that failed. -/
def propagateLit (n : Network) (p : Lit) : Checked (Option Handle × Network) := do
  let (line, index) ← n.index.take n.store p
  let (kept, failed, n) ← visitAll p line.toList #[] { n with index }
  return (failed, { n with index := ← n.index.restore p kept })

/-- Propagates the waiting literals, at most `fuel` of them. After a failure nothing waits. -/
def propagateWithin : (fuel : Nat) → Network → Checked (Option Handle × Network)
  | 0, _ => throw .exhausted
  | fuel + 1, n =>
    match n.trail.dequeue with
    | none => return (none, n)
    | some (p, trail) => do
      match ← propagateLit { n with trail, propagations := n.propagations + 1 } p with
      | (some h, n) => return (some h, { n with trail := n.trail.dequeueAll })
      | (none, n) => propagateWithin fuel n

/-- Propagates until no literal waits or a constraint fails; the answer is the constraint that
failed. Every variable waits at most once, which bounds the work. -/
def propagate (n : Network) : Checked (Option Handle × Network) :=
  propagateWithin (n.trail.varCount + 1) n

end Network

end CardSat
