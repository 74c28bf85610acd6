import CardSat.Store
import CardSat.Table.Dense

set_option autoImplicit false

/-! # The watch index

For every literal the constraints that have to be looked at when the literal becomes true. A clause
has a watcher under the complement of each of its first two literals, with the other one as blocker;
an at-most constraint has one under each of its watched literals.

A constraint that is freed loses its watchers either at once (`unwatch`) or lazily (`markStale`):
the line is marked dirty and is cleaned when it is next read. While a line is visited it is taken
out of the index and stands empty there (`take`); what is left of it is put back afterwards
(`restore`).
-/

namespace CardSat

/-- A constraint on watch. If the blocker is true, the constraint is satisfied. -/
structure Watcher where
  handle : Handle
  blocker : Option Lit

/-- The watchers of one literal. A dirty line may hold watchers of freed constraints. -/
structure WatchLine where
  watchers : Array Watcher := #[]
  dirty : Bool := false

/-- The watchers of every literal, by its number. -/
abbrev WatchIndex := DenseTable WatchLine

namespace WatchIndex

/-- Adds the lines of a new variable. -/
def addVar (w : WatchIndex) (v : Var) : WatchIndex := w.cover (v.lit true).index {}

/-- Forgets the lines of the variables from number `n` on. -/
def truncateVars (w : WatchIndex) (n : Nat) : WatchIndex := w.truncate (2 * n)

/-- Adds a watcher to the line of a literal. -/
def push (w : WatchIndex) (l : Lit) (x : Watcher) : Checked WatchIndex :=
  w.modify l.index fun line => { line with watchers := line.watchers.push x }

/-- Puts a constraint on watch. -/
def watch (w : WatchIndex) (c : Constraint) (h : Handle) : Checked WatchIndex := do
  if c.isAtMost then
    (← c.watched).foldlM (fun w l => push w l ⟨h, none⟩) w
  else
    let (a, b) ← c.headPair
    let w ← push w a.neg ⟨h, some b⟩
    push w b.neg ⟨h, some a⟩

/-- Removes the watchers of a constraint. -/
def unwatch (w : WatchIndex) (c : Constraint) (h : Handle) : Checked WatchIndex := do
  (← c.watchKeys).foldlM (fun w l => w.modify l.index fun line =>
    { line with watchers := line.watchers.filter fun x => x.handle ≠ h }) w

/-- Marks the lines that hold watchers of a constraint which is being freed. -/
def markStale (w : WatchIndex) (c : Constraint) : Checked WatchIndex := do
  (← c.watchKeys).foldlM (fun w l => w.modify l.index fun line => { line with dirty := true }) w

/-- Takes the watchers out of the line of a literal, leaving out those of freed constraints
if the line is dirty. The line is clean and empty afterwards. -/
def take (w : WatchIndex) (store : Store) (l : Lit) : Checked (Array Watcher × WatchIndex) := do
  let line ← w.fetch l.index
  let found := if line.dirty then line.watchers.filter fun x => !store.isDeleted x.handle
    else line.watchers
  return (found, ← w.set l.index {})

/-- Gives the line of a literal its watchers back. -/
def restore (w : WatchIndex) (l : Lit) (watchers : Array Watcher) : Checked WatchIndex :=
  w.modify l.index fun line => { line with watchers }

end WatchIndex

end CardSat
