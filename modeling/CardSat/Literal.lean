set_option autoImplicit false

/-! # Variables, literals and truth values

A variable is a number. A literal is a variable together with the side it takes, and the
literals are ordered by `Lit.index`: the two literals of variable `v` have the numbers `2 v`
and `2 v + 1`, so that a table over literals has twice the length of one over variables.
`Truth` is the value that a partial assignment gives to a literal.
-/

namespace CardSat

/-- A propositional variable, numbered from zero. -/
structure Var where
  index : Nat
  deriving DecidableEq

/-- A variable or, when `negated`, its negation. -/
structure Lit where
  var : Var
  negated : Bool
  deriving DecidableEq

namespace Var

/-- The literal of `v` on the given side. -/
def lit (v : Var) (negated : Bool) : Lit := ⟨v, negated⟩

/-- The largest number a variable can have; its two literals then still fit 32 bits. -/
def maxIndex : Nat := 0x7FFFFFFF

/-- Variables are written `x0`, `x1`, and so on. -/
def text (v : Var) : String := "x" ++ toString v.index

end Var

namespace Lit

/-- The position of a literal in the order of literals. -/
def index (l : Lit) : Nat := 2 * l.var.index + l.negated.toNat

/-- The literal at a position of the order. -/
def ofIndex (n : Nat) : Lit := ⟨⟨n / 2⟩, n % 2 == 1⟩

/-- The largest number a literal can have. -/
def maxIndex : Nat := 0xFFFFFFFF

/-- The complementary literal. -/
def neg (l : Lit) : Lit := { l with negated := !l.negated }

/-- Whether `a` stands at or before `b` in the order of literals. -/
def le (a b : Lit) : Bool := a.index ≤ b.index

/-- A negated literal is written with a leading negation sign. -/
def text (l : Lit) : String := if l.negated then "¬" ++ l.var.text else l.var.text

/-- The literals of a list in ascending order. -/
def sort (lits : List Lit) : List Lit := lits.mergeSort le

/-- The distinct literals of a list in ascending order: after sorting, equal literals are
neighbours. -/
def sortDistinct (lits : List Lit) : List Lit := (sort lits).eraseReps

@[simp] theorem neg_neg (l : Lit) : l.neg.neg = l := by
  cases l; simp [neg]

@[simp] theorem neg_var (l : Lit) : l.neg.var = l.var := rfl

@[simp] theorem neg_negated (l : Lit) : l.neg.negated = !l.negated := rfl

theorem neg_ne (l : Lit) : l.neg ≠ l := by
  intro h
  have := congrArg Lit.negated h
  simp at this

@[simp] theorem ofIndex_index (l : Lit) : ofIndex l.index = l := by
  rcases l with ⟨⟨v⟩, b⟩
  cases b <;> simp [ofIndex, index]; omega

@[simp] theorem index_ofIndex (n : Nat) : (ofIndex n).index = n := by
  rcases Nat.mod_two_eq_zero_or_one n with h | h <;>
    simp only [ofIndex, index, h] <;> simp <;> omega

end Lit

/-- The value of a variable or literal under a partial assignment. -/
inductive Truth where
  | unset
  | no
  | yes
  deriving DecidableEq

namespace Truth

/-- The value that a decided truth takes. -/
def ofBool (b : Bool) : Truth := if b then yes else no

/-- The value of the complement. -/
def neg : Truth → Truth
  | unset => unset
  | no => yes
  | yes => no

/-- Whether nothing is known yet. -/
def isUnset (t : Truth) : Bool := t == unset

/-- The value of a literal whose variable has the value `t`. -/
def ofSide (t : Truth) (negated : Bool) : Truth := if negated then t.neg else t

/-- The name of the value. -/
def text : Truth → String
  | unset => "Undef"
  | no => "False"
  | yes => "True"

@[simp] theorem neg_neg (t : Truth) : t.neg.neg = t := by cases t <;> rfl

theorem neg_eq_unset {t : Truth} : t.neg = unset ↔ t = unset := by cases t <;> simp [neg]

end Truth

end CardSat
