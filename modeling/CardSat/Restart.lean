import CardSat.Fault
import CardSat.Power

set_option autoImplicit false

/-! # Restart intervals

The number of conflicts that a search may meet before it starts over grows with the number
of restarts, either geometrically or along the Luby sequence 1 1 2 1 1 2 4 1 1 2 …, whose
`x`-th element is a power of two with exponent `lubyExponent x`. The sequence consists of
nested complete subsequences of the lengths 1, 3, 7, …; `enclosingSubsequence` finds the
smallest one that reaches an index and `descend` finds the subsequence that ends at it.
-/

namespace CardSat

/-- The number of values of a restart counter. -/
def restartRange : Nat := UInt32.size

/-- The length of the smallest complete subsequence that reaches index `x`, and its order,
searching from a subsequence of length `size` and order `order` on. A length beyond 32 bits
is refused. -/
def enclosingSubsequence (x size : Nat) (order : Int) : Checked (Nat × Int) :=
  if size < x + 1 then
    if 2 * size + 1 < restartRange then enclosingSubsequence x (2 * size + 1) (order + 1)
    else .error .restartOutOfRange
  else .ok (size, order)
termination_by x + 1 - size
decreasing_by omega

/-- The order of the complete subsequence that ends at index `x`, searched inside one of
length `size` and order `order`. -/
def descend (size x : Nat) (order : Int) : Checked Int :=
  if size - 1 = x then .ok order
  else if (size - 1) / 2 = 0 then .error .restartOutOfRange
  else descend ((size - 1) / 2) (x % ((size - 1) / 2)) (order - 1)
termination_by size
decreasing_by omega

/-- The exponent of the element `x` of the Luby sequence. -/
def lubyExponent (x : Nat) : Checked Int := do
  let (size, order) ← enclosingSubsequence x 1 0
  descend size x order

/-- `y` raised to the exponent of the element `x` of the Luby sequence. -/
def luby (y : Float) (x : Nat) : Checked Float := return power y (← lubyExponent x)

/-- How the restart intervals grow. -/
structure RestartStrategy where
  /-- Along the Luby sequence rather than geometrically. -/
  luby : Bool := true
  /-- The length of an interval of factor one. -/
  first : Float := 100.0
  /-- The base of the powers. -/
  inc : Float := 2.0

/-- The number of conflicts allowed after `restarts` restarts, cut to a 64-bit word. The
exponent of geometric growth is the counter read as a signed 32-bit word. -/
def RestartStrategy.interval (s : RestartStrategy) (restarts : Nat) : Checked UInt64 := do
  let base ← if s.luby then CardSat.luby s.inc restarts
    else pure (power s.inc (Int.bmod restarts restartRange))
  return (base * s.first).toUInt64

end CardSat
