import Mathlib

set_option autoImplicit false

/-! # The order of floats

Floats that are numbers are ordered by a rank: the sign and kind, then the exponent, then the
mantissa, both negated where the float is negative (`floatRank`). A comparison with a float that is
not a number fails.

The rank is a tuple with the lexicographic order, so floats that are numbers are totally preordered
by it. It is all that the queue of the decisions and the ranking of learnt clauses need of floats,
and it is read off the bits. What floats mean as numbers is in `Proofs.Float.Value`.
-/

namespace CardSat

open Float.Model UnpackedFloat

/-- The place of a float among the floats; without meaning if the float is not a number. -/
def unpackedRank : UnpackedFloat → Int ×ₗ Int ×ₗ Int
  | .infinity .negative => toLex (-2, toLex (0, 0))
  | .finite .negative m e _ => toLex (-1, toLex (-e, -m))
  | .zero _ | .notANumber => toLex (0, toLex (0, 0))
  | .finite .positive m e _ => toLex (1, toLex (e, m))
  | .infinity .positive => toLex (2, toLex (0, 0))

theorem compare_toLex {k k' e e' m m' : Int} :
    compare (toLex (k, toLex (e, m))) (toLex (k', toLex (e', m'))) =
      (compare k k').then ((compare e e').then (compare m m')) := by
  simp [Prod.Lex.compare_def, compareLex, compareOn]

theorem compare_natCast {m n : Nat} : compare (m : Int) (n : Int) = compare m n := by
  simp only [compare, compareOfLessAndEq, Nat.cast_lt, Nat.cast_inj]

theorem compare_neg_int {a b : Int} : compare (-a) (-b) = (compare a b).swap := by
  rw [Int.compare_swap]
  simp only [compare, compareOfLessAndEq, Int.neg_lt_neg_iff, Int.neg_inj, eq_comm (a := a)]

/-- Numbers compare as their ranks. -/
theorem compare_eq_compare_rank {u v : UnpackedFloat} (hu : u.isNaN = false)
    (hv : v.isNaN = false) : u.compare v = some (compare (unpackedRank u) (unpackedRank v)) := by
  cases u with
  | notANumber => contradiction
  | infinity s => cases v with
    | notANumber => contradiction
    | _ t => cases s <;> cases t <;> rfl
  | zero s => cases v with
    | notANumber => contradiction
    | zero t => rfl
    | _ t => cases t <;> rfl
  | finite s m e hm => cases v with
    | notANumber => contradiction
    | finite t n f hn =>
      cases s <;> cases t
      case negative.negative =>
        simp only [UnpackedFloat.compare, unpackedRank, compare_toLex, compare_neg_int,
          compare_natCast, Ordering.swap_then]
        rfl
      case positive.positive =>
        simp only [UnpackedFloat.compare, unpackedRank, compare_toLex, compare_natCast]
        rfl
      all_goals rfl
    | _ t => cases s <;> cases t <;> rfl

theorem compare_eq_none {u v : UnpackedFloat} :
    u.compare v = none ↔ u.isNaN = true ∨ v.isNaN = true := by
  constructor
  · intro h
    by_contra hn
    simp only [not_or, Bool.not_eq_true] at hn
    rw [compare_eq_compare_rank hn.1 hn.2] at h
    contradiction
  · rintro (h | h)
    · rw [isNaN_iff.1 h]
      rfl
    · rw [isNaN_iff.1 h]
      cases u <;> rfl

/-- A comparison says how the ranks of two numbers compare. -/
theorem compare_eq_some {u v : UnpackedFloat} {o : Ordering} :
    u.compare v = some o ↔ u.isNaN = false ∧ v.isNaN = false ∧
      compare (unpackedRank u) (unpackedRank v) = o := by
  constructor
  · intro h
    have hn : ¬(u.isNaN = true ∨ v.isNaN = true) := fun hn => by
      rw [compare_eq_none.2 hn] at h
      contradiction
    simp only [not_or, Bool.not_eq_true] at hn
    rw [compare_eq_compare_rank hn.1 hn.2] at h
    exact ⟨hn.1, hn.2, Option.some.inj h⟩
  · rintro ⟨hu, hv, rfl⟩
    exact compare_eq_compare_rank hu hv

/-- The place of a float among the floats. -/
def floatRank (x : Float) : Int ×ₗ Int ×ₗ Int := unpackedRank x.toModel.unpack

variable {x y : Float}

theorem float_lt_iff : x < y ↔ x.isNaN = false ∧ y.isNaN = false ∧ floatRank x < floatRank y := by
  have hcompare : x < y ↔ x.toModel.unpack.compare y.toModel.unpack = some .lt := by
    simp only [LT.lt, Float.lt, decide_eq_true_eq]
    exact beq_iff_eq
  rw [hcompare, compare_eq_some, compare_lt_iff_lt]
  rfl

theorem float_le_iff : x ≤ y ↔ x.isNaN = false ∧ y.isNaN = false ∧ floatRank x ≤ floatRank y := by
  have hcompare : x ≤ y ↔ ∃ o, x.toModel.unpack.compare y.toModel.unpack = some o ∧ o.isLE := by
    simp only [LE.le, Float.le, decide_eq_true_eq]
    exact Option.any_eq_true ..
  simp only [hcompare, compare_eq_some, and_assoc, exists_and_left, exists_eq_left',
    Ordering.isLE_iff_ne_gt, compare_le_iff_le]
  rfl

theorem float_le_of_lt (h : x < y) : x ≤ y := by
  obtain ⟨hx, hy, hlt⟩ := float_lt_iff.1 h
  exact float_le_iff.2 ⟨hx, hy, hlt.le⟩

/-- Floats that can be compared are ordered by their ranks. -/
theorem float_le_iff_of_comparable (h : x ≤ y ∨ y ≤ x) : x ≤ y ↔ floatRank x ≤ floatRank y := by
  rcases h with h | h <;> obtain ⟨hx, hy, -⟩ := float_le_iff.1 h <;>
    simp only [float_le_iff, hx, hy, true_and]

theorem float_lt_iff_of_comparable (h : x ≤ y ∨ y ≤ x) : x < y ↔ floatRank x < floatRank y := by
  rcases h with h | h <;> obtain ⟨hx, hy, -⟩ := float_le_iff.1 h <;>
    simp only [float_lt_iff, hx, hy, true_and]

end CardSat
