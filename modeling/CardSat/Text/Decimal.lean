import CardSat.Text.Column

set_option autoImplicit false

/-! # Reading decimal numbers

`nearestFloat m e` is the float nearest to `m * 10 ^ e`, a half going to the even neighbour.
`readFloat?` reads a number as it is written on a command line: an optional sign, digits
with an optional point, and an optional exponent; or `inf`, `infinity` or `nan` in any case.
`readNat?` and `readInt?` read whole numbers up to a limit.
-/

namespace CardSat

/-- The nearest float to the quotient of two positive numbers. The quotient is scaled by a
power of two so that it has 53 binary digits, or fewer where floats are subnormal, and
rounded. -/
def floatOfQuotient (num den : Nat) : Float :=
  let guess : Int := (num.log2 : Int) - den.log2 - 53
  let scale (q : Int) : Nat × Nat :=
    if 0 ≤ q then (num, den <<< q.toNat) else (num <<< (-q).toNat, den)
  let tooBig (q : Int) : Bool := let (n, d) := scale q; n / d ≥ 1 <<< 53
  let q := if tooBig guess then guess + 1 else guess
  let q := if q < -1074 then -1074 else q
  let (n, d) := scale q
  let m := roundQuotient n d
  let (m, q) := if m = 1 <<< 53 then (1 <<< 52, q + 1) else (m, q)
  if m < 1 <<< 52 then Float.ofBits m.toUInt64
  else if q + 1075 ≥ 2047 then Float.ofBits 0x7ff0000000000000
  else Float.ofBits ((q + 1075).toNat <<< 52 + (m - 1 <<< 52)).toUInt64

/-- The nearest float to `m * 10 ^ e`. Beyond the exponents that floats reach the answer is
zero or infinity. -/
def nearestFloat (m : Nat) (e : Int) : Float :=
  if m = 0 then 0.0
  else
    let top : Int := e + (toString m).length
    if top > 400 then Float.ofBits 0x7ff0000000000000
    else if top < -400 then 0.0
    else if 0 ≤ e then floatOfQuotient (m * Nat.pow 10 e.toNat) 1
    else floatOfQuotient m (Nat.pow 10 (-e).toNat)

/-- The value of a list of decimal digits, most significant first. -/
def digitsValue (ds : List Char) : Nat := ds.foldl (fun n c => 10 * n + (c.toNat - '0'.toNat)) 0

/-- Splits off a leading sign; the answer is whether it is a minus. -/
def splitSign : List Char → Bool × List Char
  | '-' :: r => (true, r)
  | '+' :: r => (false, r)
  | r => (false, r)

/-- Reads an exponent: the mark, an optional sign and at least one digit, up to the end. -/
def readExponent? : List Char → Option Int
  | [] => some 0
  | c :: r =>
    if c = 'e' ∨ c = 'E' then
      let (minus, ds) := splitSign r
      if ds.isEmpty ∨ !ds.all Char.isDigit then none
      else some (if minus then -(digitsValue ds : Int) else digitsValue ds)
    else none

/-- Reads an unsigned decimal number with a digit before or after the point. -/
def readMagnitude? (s : List Char) : Option Float :=
  let whole := s.takeWhile Char.isDigit
  let rest := s.dropWhile Char.isDigit
  let (places, rest) := match rest with
    | '.' :: r => (r.takeWhile Char.isDigit, r.dropWhile Char.isDigit)
    | _ => ([], rest)
  if whole.isEmpty ∧ places.isEmpty then none
  else (readExponent? rest).map fun e =>
    nearestFloat (digitsValue (whole ++ places)) (e - places.length)

/-- Reads a float. -/
def readFloat? (s : String) : Option Float :=
  let (minus, body) := splitSign s.toList
  let word := String.ofList (body.map Char.toLower)
  let magnitude :=
    if word = "inf" ∨ word = "infinity" then some (Float.ofBits 0x7ff0000000000000)
    else if word = "nan" then some (Float.ofBits 0x7ff8000000000000)
    else readMagnitude? body
  magnitude.map fun x => if minus then -x else x

/-- Reads a number without a minus that is below `limit`. -/
def readNat? (limit : Nat) (s : String) : Option Nat :=
  let ds := match s.toList with
    | '+' :: r => r
    | r => r
  if ds.isEmpty ∨ !ds.all Char.isDigit then none
  else if digitsValue ds < limit then some (digitsValue ds) else none

/-- Reads a whole number from `-limit` to `limit - 1`. -/
def readInt? (limit : Nat) (s : String) : Option Int :=
  let (minus, ds) := splitSign s.toList
  if ds.isEmpty ∨ !ds.all Char.isDigit then none
  else
    let n : Int := if minus then -(digitsValue ds : Int) else digitsValue ds
    if -(limit : Int) ≤ n ∧ n < limit then some n else none

end CardSat
