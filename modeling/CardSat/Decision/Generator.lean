import CardSat.Fault

set_option autoImplicit false

/-! # Random numbers

A multiplicative congruential generator modulo `2 ^ 31 - 1` that runs in floating-point
arithmetic, so that a seed fixes the whole sequence.
-/

namespace CardSat

/-- A random generator, given by its state. -/
structure Generator where
  seed : Float

namespace Generator

/-- The generator with a given seed, which has to be positive. -/
def ofSeed (seed : Float) : Checked Generator := do
  require (seed > 0.0) .seedNotPositive
  return ⟨seed⟩

/-- The modulus of the sequence. -/
def modulus : Float := 2147483647.0

/-- The factor from one state to the next. -/
def multiplier : Float := 1389796.0

/-- The whole part of a float, cut off at the ends of the signed words of 32 bits. A float that is
not a number counts as zero. -/
def wholePart (x : Float) : Int :=
  if x < 0.0 then -(min (-x).toUInt64.toNat 0x80000000 : Nat)
  else (min x.toUInt64.toNat 0x7FFFFFFF : Nat)

/-- The next number, from zero up to but not including one, as long as the state is below the
modulus. -/
def next (g : Generator) : Float × Generator :=
  let product := g.seed * multiplier
  let q := Float.ofInt (wholePart (product / modulus))
  let seed := product - q * modulus
  (seed / modulus, ⟨seed⟩)

/-- The next whole number below `n`. -/
def below (g : Generator) (n : Nat) : Nat × Generator :=
  let (x, g) := g.next
  ((x * n.toFloat).toUInt64.toNat, g)

/-- An event of probability `p`. An event that cannot happen uses no number. -/
def chance (g : Generator) (p : Float) : Bool × Generator :=
  if p > 0.0 then
    let (x, g) := g.next
    (x < p, g)
  else (false, g)

end Generator

end CardSat
