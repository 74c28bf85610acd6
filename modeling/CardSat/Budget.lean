set_option autoImplicit false

/-! # Budgets and watchdogs

Two ways to bound a search from outside. A `Budget` limits the conflicts and propagations of
one call, and can be interrupted. A `Handler` is told when a search starts and ends, and is
asked at every conflict whether to go on; `ConflictLimit` and `Deadline` are the states of
two handlers.
-/

namespace CardSat

/-- The resources of one search; none means without limit. The flag is the one that the search
finds when it starts: a handler that sets it at a conflict stops the search where a limit of the
conflicts met so far stops it. -/
structure Budget where
  conflicts : Option Nat := none
  propagations : Option Nat := none
  interrupted : Bool := false

namespace Budget

/-- The limit of `n` uses; a number that does not fit a signed 64-bit word is no limit. -/
def limit (n : Nat) : Option Nat := if n < 0x8000000000000000 then some n else none

/-- Limits the number of conflicts. -/
def setConflicts (b : Budget) (n : Nat) : Budget := { b with conflicts := limit n }

/-- Limits the number of propagated literals. -/
def setPropagations (b : Budget) (n : Nat) : Budget := { b with propagations := limit n }

/-- Stops the search at the next occasion. -/
def interrupt (b : Budget) : Budget := { b with interrupted := true }

/-- Whether a search that used this many conflicts and propagations may go on. -/
def within (b : Budget) (conflicts propagations : Nat) : Bool :=
  !b.interrupted && b.conflicts.all (conflicts < ·) && b.propagations.all (propagations < ·)

end Budget

/-- Accompanies a search. The search gives up when `onConflict` answers false. -/
structure Handler (m : Type → Type) where
  started : m Unit
  onConflict : m Bool
  finished : m Unit

/-- The handler that never gives up. -/
def Handler.none {m : Type → Type} [Monad m] : Handler m := ⟨pure (), pure true, pure ()⟩

/-- Gives up after a number of conflicts. -/
structure ConflictLimit where
  limit : Nat
  seen : Nat := 0

namespace ConflictLimit

/-- A search starts. -/
def start (c : ConflictLimit) : ConflictLimit := { c with seen := 0 }

/-- A conflict was met; the answer is whether to go on. -/
def onConflict (c : ConflictLimit) : Bool × ConflictLimit :=
  (c.seen + 1 ≤ c.limit, { c with seen := c.seen + 1 })

end ConflictLimit

/-- Gives up when a number of seconds has passed since the start. -/
structure Deadline where
  timeout : Float
  /-- The reading of the clock at which time is up. -/
  due : Float := 0.0
  expired : Bool := false

namespace Deadline

/-- A search starts when the clock reads `now`. -/
def start (d : Deadline) (now : Float) : Deadline :=
  { d with due := now + d.timeout, expired := false }

/-- A conflict was met when the clock reads `now`; the answer is whether to go on. -/
def onConflict (d : Deadline) (now : Float) : Bool × Deadline :=
  let expired := d.expired || now ≥ d.due
  (!expired, { d with expired })

end Deadline

end CardSat
