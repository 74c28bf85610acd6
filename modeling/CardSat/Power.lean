set_option autoImplicit false

/-! # Powers of floating-point numbers

A float raised to a whole exponent by repeated squaring. Every product is rounded, so the
order of the multiplications is part of the result: the factor is taken into the product at
each odd exponent, before it is squared.
-/

namespace CardSat

/-- The product `r * a ^ n`, the factor `a` being squared while `n` is halved. -/
def powerFrom (r a : Float) (n : Nat) : Float :=
  let r := if n % 2 = 1 then r * a else r
  if n / 2 = 0 then r else powerFrom r (a * a) (n / 2)
termination_by n
decreasing_by omega

/-- `a` raised to the exponent `n`; a negative exponent is the reciprocal of the positive one. -/
def power (a : Float) (n : Int) : Float :=
  let r := powerFrom 1.0 a n.natAbs
  if n < 0 then 1.0 / r else r

end CardSat
