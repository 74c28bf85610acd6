set_option autoImplicit false

/-! # Columns of numbers

Numbers in tables of text: `column` places a number at the right edge of a column, and
`fixed` writes a float with a given number of decimal places. A float stands for an exact
fraction `m * 2 ^ q`; `fixed` rounds that fraction, and a half goes to the even neighbour.
-/

namespace CardSat

/-- Fills a text with blanks on the left up to a width. -/
def column (width : Nat) (s : String) : String :=
  String.ofList (List.replicate (width - s.length) ' ') ++ s

/-- The quotient of two numbers rounded to the nearest whole number, a half going to the even
neighbour. -/
def roundQuotient (num den : Nat) : Nat :=
  let q := num / den
  let r := num % den
  if 2 * r < den then q
  else if 2 * r > den then q + 1
  else if q % 2 = 0 then q else q + 1

/-- The magnitude of a finite float as a whole number times a power of two. -/
def binaryParts (x : Float) : Nat × Int :=
  let bits : Nat := x.toBits.toNat
  let fraction : Nat := bits % (1 <<< 52)
  let exponent : Nat := (bits >>> 52) % (1 <<< 11)
  if exponent = 0 then (fraction, -1074) else (fraction + 1 <<< 52, (exponent : Int) - 1075)

/-- Whether the sign bit of a float is set. -/
def signBit (x : Float) : Bool := x.toBits.toNat >>> 63 = 1

/-- The digits of `n` with a point before the last `places` of them. -/
def pointed (places n : Nat) : String :=
  if places = 0 then toString n
  else
    let digits := toString (n % Nat.pow 10 places)
    toString (n / Nat.pow 10 places) ++ "." ++
      String.ofList (List.replicate (places - digits.length) '0') ++ digits

/-- A float with the given number of decimal places; `NaN` and `inf` where there is no
fraction to write. -/
def fixed (places : Nat) (x : Float) : String :=
  if x.isNaN then "NaN"
  else
    let sign := if signBit x then "-" else ""
    if x.isInf then sign ++ "inf"
    else
      let (m, q) := binaryParts x
      let n := if 0 ≤ q then m <<< q.toNat * Nat.pow 10 places
        else roundQuotient (m * Nat.pow 10 places) (1 <<< (-q).toNat)
      sign ++ pointed places n

end CardSat
