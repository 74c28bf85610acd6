import CardSat.Proofs.Float.Value

set_option autoImplicit false

/-! # Rounding answers the nearest float

An exact result reaches rounding as a mantissa, an exponent, and two bits that say how the result
lies between this mantissa and the next (`Brackets`). Shifting the mantissa right keeps this
knowledge, whatever is shifted out (`Brackets.shiftRight`), so the rounded mantissa is the integer
nearest to the shifted result (`Brackets.abs_sub_le`).

This makes the rounded float the nearest one (`nearest_roundWithAccuracy`). The representable
numbers it competes with are of two kinds. Those that are multiples of the step of the rounded
mantissa are integers next to the shifted result. All others have a smaller exponent. There are such
only if the mantissa has 53 bits, and then they lie below its least value.

## What is needed of a result

Rounding only shifts to the right. It is given enough bits if there are at least 53 of them, or if
the exponent is at most that of the least floats. Both hypotheses of `nearest_roundWithAccuracy` hold
of what the operations hand to rounding.
-/

namespace CardSat

open Float.Model UnpackedFloat

variable {x y : Float} {u v : UnpackedFloat} {s t : Sign} {m n p : Nat} {e f : Int} {q r b : ℚ}

/-! ## Brackets -/

/-- The bits of a mantissa say how `r` lies between the mantissa and the next integer. -/
inductive Brackets : ExtendedMantissa → ℚ → Prop
  | exact {m : Nat} : Brackets ⟨m, false, false⟩ m
  | low {m : Nat} {r : ℚ} (hlow : m < r) (hhigh : r < m + 1 / 2) : Brackets ⟨m, false, true⟩ r
  | half {m : Nat} : Brackets ⟨m, true, false⟩ (m + 1 / 2)
  | high {m : Nat} {r : ℚ} (hlow : m + 1 / 2 < r) (hhigh : r < m + 1) : Brackets ⟨m, true, true⟩ r

namespace Brackets

variable {em : ExtendedMantissa}

theorem bounds (h : Brackets em r) : em.mantissa ≤ r ∧ r < em.mantissa + 1 := by
  cases h with
  | exact => exact ⟨le_rfl, by linarith⟩
  | low hlow hhigh => exact ⟨hlow.le, by dsimp only; linarith⟩
  | half => exact ⟨by dsimp only; linarith, by dsimp only; linarith⟩
  | high hlow hhigh => exact ⟨by dsimp only; linarith, hhigh⟩

/-- The bit that is shifted out becomes the round bit, and the round bit leaves its trace. -/
theorem shiftRightOne (h : Brackets em r) : Brackets em.shiftRightOne (r / 2) := by
  -- the parity of the mantissa says which half the shifted number lies in
  have hparity : ∀ m : Nat, ∃ k : Nat, (m = 2 * k ∧ m / 2 = k ∧ (m % 2 != 0) = false) ∨
      (m = 2 * k + 1 ∧ m / 2 = k ∧ (m % 2 != 0) = true) := by
    intro m
    refine ⟨m / 2, ?_⟩
    rcases Nat.mod_two_eq_zero_or_one m with hm | hm <;> simp [hm] <;> omega
  cases h with
  | @exact m =>
    obtain ⟨k, ⟨rfl, hk, hbit⟩ | ⟨rfl, hk, hbit⟩⟩ := hparity m
    all_goals simp only [ExtendedMantissa.shiftRightOne, hk, hbit, Bool.or_self]
    · have hvalue : ((2 * k : Nat) : ℚ) / 2 = k := by push_cast; ring
      exact hvalue ▸ .exact
    · have hvalue : ((2 * k + 1 : Nat) : ℚ) / 2 = k + 1 / 2 := by push_cast; ring
      exact hvalue ▸ .half
  | @low m r hlow hhigh =>
    obtain ⟨k, ⟨rfl, hk, hbit⟩ | ⟨rfl, hk, hbit⟩⟩ := hparity m
    all_goals
      simp only [ExtendedMantissa.shiftRightOne, hk, hbit, Bool.false_or]
      push_cast at hlow hhigh
    · exact .low (by linarith) (by linarith)
    · exact .high (by linarith) (by linarith)
  | @half m =>
    obtain ⟨k, ⟨rfl, hk, hbit⟩ | ⟨rfl, hk, hbit⟩⟩ := hparity m
    all_goals
      simp only [ExtendedMantissa.shiftRightOne, hk, hbit, Bool.true_or]
      push_cast
    · exact .low (by linarith) (by linarith)
    · exact .high (by linarith) (by linarith)
  | @high m r hlow hhigh =>
    obtain ⟨k, ⟨rfl, hk, hbit⟩ | ⟨rfl, hk, hbit⟩⟩ := hparity m
    all_goals
      simp only [ExtendedMantissa.shiftRightOne, hk, hbit, Bool.true_or]
      push_cast at hlow hhigh
    · exact .low (by linarith) (by linarith)
    · exact .high (by linarith) (by linarith)

theorem shiftRight (h : Brackets em r) (k : Nat) : Brackets (em >>> k) (r / 2 ^ k) := by
  induction k with
  | zero =>
    rw [pow_zero, div_one]
    exact h
  | succ k ih =>
    have hhalf : r / 2 ^ (k + 1) = r / 2 ^ k / 2 := by rw [pow_succ, div_div]
    exact hhalf ▸ ih.shiftRightOne

/-- The rounded mantissa is an integer nearest to the number. -/
theorem abs_sub_le (h : Brackets em r) (k : Int) : |(em.roundedMantissa : ℚ) - r| ≤ |k - r| := by
  -- an integer is at most the mantissa or at least the next one
  have hside : ∀ m : Nat, (k : ℚ) ≤ m ∨ (m : ℚ) + 1 ≤ k := by
    intro m
    rcases le_or_gt k m with hle | hgt
    · exact .inl (by exact_mod_cast hle)
    · exact .inr (by exact_mod_cast hgt)
  cases h with
  | @exact m =>
    show |(m : ℚ) - m| ≤ _
    rw [sub_self, abs_zero]
    exact abs_nonneg _
  | @low m r hlow hhigh =>
    show |(m : ℚ) - r| ≤ _
    rw [abs_of_neg (by linarith)]
    rcases hside m with hle | hge
    · rw [abs_of_neg (by linarith)]
      linarith
    · rw [abs_of_pos (by linarith)]
      linarith
  | @half m =>
    -- both neighbours are as near
    have heven : |((m + m % 2 : Nat) : ℚ) - (m + 1 / 2)| = 1 / 2 := by
      rcases Nat.mod_two_eq_zero_or_one m with hm | hm
      · rw [hm, Nat.add_zero, abs_of_neg (by linarith)]
        ring
      · rw [hm]
        push_cast
        rw [abs_of_pos (by linarith)]
        ring
    show |((m + m % 2 : Nat) : ℚ) - (m + 1 / 2)| ≤ _
    rw [heven]
    rcases hside m with hle | hge
    · rw [abs_of_neg (by linarith)]
      linarith
    · rw [abs_of_pos (by linarith)]
      linarith
  | @high m r hlow hhigh =>
    show |((m + 1 : Nat) : ℚ) - r| ≤ _
    push_cast
    rw [abs_of_pos (by linarith)]
    rcases hside m with hle | hge
    · rw [abs_of_neg (by linarith)]
      linarith
    · rw [abs_of_pos (by linarith)]
      linarith

end Brackets

/-! ## The value of a rounded float -/

/-- The second shift changes nothing: it only takes back a power of two. -/
theorem unpackedValue_settled (hhigh : n ≤ 2 ^ 53) (hf : -1074 ≤ f) :
    unpackedValue (settled s n f) = signValue s * (n * 2 ^ f) := by
  have hkeeps : ((n / 2 ^ roundingShift n f : Nat) : ℚ) * 2 ^ (f + roundingShift n f) =
      n * 2 ^ f := by
    by_cases htop : n = 2 ^ 53
    · have hhalf : (2 ^ 53 / 2 ^ 1 : Nat) = 2 ^ 52 := by decide
      rw [htop, roundingShift_top hf, hhalf, Nat.cast_one, two_zpow_succ]
      push_cast
      ring
    · rw [roundingShift_eq_zero (by omega) hf, Nat.pow_zero, Nat.div_one, Nat.cast_zero, add_zero]
  rw [settled]
  split
  next hzero =>
      rw [hzero, Nat.cast_zero, zero_mul] at hkeeps
      rw [← hkeeps, mul_zero]
      rfl
  next hpos => rw [unpackedValue, hkeeps]

/-- Packing cuts the value off at that of infinity. -/
theorem unpackedValue_pack {i : Int} (hu : Settled s i u) (hvalue : unpackedValue u = signValue s * r)
    (hr : 0 ≤ r) :
    (Float.Model.pack u).unpack.isNaN = false ∧
      unpackedValue (Float.Model.pack u).unpack = signValue s * min topValue r := by
  have htop := topValue_pos.le
  have hsign : signValue s ≠ 0 := by cases s <;> norm_num [signValue]
  cases hu with
  | zero hi =>
    have hzero : r = 0 := ((mul_eq_zero.1 hvalue.symm).resolve_left hsign)
    rw [hzero, min_eq_right htop, mul_zero]
    cases s <;> exact ⟨rfl, rfl⟩
  | @finite m f hm hf hi =>
    obtain rfl : (m : ℚ) * 2 ^ f = r := mul_left_cancel₀ hsign hvalue
    rw [unpack_pack hf]
    split
    next hmost =>
        rw [min_eq_right (finiteValue_bounds hm hf hmost).2.le]
        exact ⟨rfl, rfl⟩
    next hgreat =>
        have hlow : (2 : ℚ) ^ 52 ≤ m := by
          exact_mod_cast hf.low.resolve_right (by omega)
        rw [min_eq_left]
        · exact ⟨rfl, rfl⟩
        · calc topValue = 2 ^ 52 * (2 : ℚ) ^ (972 : Int) := by
                rw [topValue, zpow_ofNat, ← pow_add]
            _ ≤ m * 2 ^ f :=
                mul_le_mul hlow (two_zpow_le (by omega)) (two_zpow_pos _).le (by positivity)

/-! ## The nearest float -/

/-- No representable number is nearer to a number than its rounded mantissa, cut off at infinity.
The mantissa has 53 bits, or fewer at the least exponent. -/
theorem abs_min_sub_le {em : ExtendedMantissa} (h : Brackets em q) (hhigh : em.mantissa < 2 ^ 53)
    (hlow : f ≠ -1074 → 2 ^ 52 ≤ em.mantissa) (hb : Representable b) :
    |min topValue (em.roundedMantissa * 2 ^ f) - q * 2 ^ f| ≤ |b - q * 2 ^ f| := by
  have hpos := two_zpow_pos f
  have hbits : f ≠ -1074 → (2 : ℚ) ^ 52 ≤ em.mantissa := fun hf => by exact_mod_cast hlow hf
  -- of the multiples of the step, the rounded mantissa is the best
  have hscaled : ∀ k : Int, |(em.roundedMantissa : ℚ) * 2 ^ f - q * 2 ^ f| ≤
      |k * 2 ^ f - q * 2 ^ f| := by
    intro k
    rw [← sub_mul, ← sub_mul, abs_mul, abs_mul]
    exact mul_le_mul_of_nonneg_right (h.abs_sub_le k) (abs_nonneg _)
  by_cases hmost : f ≤ 971
  · have hcap : (em.roundedMantissa : ℚ) * 2 ^ f ≤ topValue := by
      have hrounded : (em.roundedMantissa : ℚ) ≤ 2 ^ 53 := by
        exact_mod_cast (roundedMantissa_bounds em).2.trans hhigh
      rw [topValue_eq]
      exact mul_le_mul hrounded (two_zpow_le hmost) hpos.le (by norm_num)
    rw [min_eq_right hcap]
    obtain ⟨n, g, hn, hg, -, rfl⟩ := hb
    rcases le_or_gt f g with hle | hgt
    · -- the competitor is a multiple of the step
      obtain ⟨j, rfl⟩ : ∃ j : Nat, g = f + j := ⟨(g - f).toNat, by omega⟩
      have hinteger : (n : ℚ) * 2 ^ (f + j) = (n * 2 ^ j : Int) * 2 ^ f := by
        rw [zpow_add₀ (by norm_num), zpow_natCast]
        push_cast
        ring
      rw [hinteger]
      exact hscaled _
    · -- the competitor lies below all mantissas of 53 bits
      have hn : (n : ℚ) ≤ 2 ^ 53 := by exact_mod_cast (abs_le.1 hn).2
      have hbelow : (n : ℚ) * 2 ^ g ≤ 2 ^ 52 * 2 ^ f := calc
        (n : ℚ) * 2 ^ g ≤ 2 ^ 53 * 2 ^ g := mul_le_mul_of_nonneg_right hn (two_zpow_pos g).le
        _ = 2 ^ 52 * 2 ^ (g + 1) := by rw [two_zpow_succ]; ring
        _ ≤ 2 ^ 52 * 2 ^ f := mul_le_mul_of_nonneg_left (two_zpow_le hgt) (by norm_num)
      have hleast : 2 ^ 52 * 2 ^ f ≤ q * 2 ^ f :=
        mul_le_mul_of_nonneg_right ((hbits (by omega)).trans h.bounds.1) hpos.le
      have hbest := hscaled ((2 ^ 52 : Nat) : Int)
      rw [Int.cast_natCast, Nat.cast_pow, Nat.cast_ofNat] at hbest
      rw [abs_of_nonpos (by linarith : (2 : ℚ) ^ 52 * 2 ^ f - q * 2 ^ f ≤ 0)] at hbest
      rw [abs_of_nonpos (by linarith : (n : ℚ) * 2 ^ g - q * 2 ^ f ≤ 0)]
      linarith
  · -- the number is beyond infinity, and no competitor is
    have htop : topValue ≤ 2 ^ 52 * 2 ^ f := calc
      topValue = 2 ^ 52 * (2 : ℚ) ^ (972 : Int) := by rw [topValue, zpow_ofNat, ← pow_add]
      _ ≤ 2 ^ 52 * 2 ^ f := mul_le_mul_of_nonneg_left (two_zpow_le (by omega)) (by norm_num)
    have hmantissa := hbits (by omega)
    have hrounded : (em.mantissa : ℚ) ≤ em.roundedMantissa := by
      exact_mod_cast (roundedMantissa_bounds em).1
    have hgreat : 2 ^ 52 * 2 ^ f ≤ (em.roundedMantissa : ℚ) * 2 ^ f :=
      mul_le_mul_of_nonneg_right (hmantissa.trans hrounded) hpos.le
    have hq : 2 ^ 52 * 2 ^ f ≤ q * 2 ^ f :=
      mul_le_mul_of_nonneg_right (hmantissa.trans h.bounds.1) hpos.le
    have hb := (abs_le.1 (abs_le_topValue hb)).2
    rw [min_eq_left (htop.trans hgreat), abs_of_nonpos (by linarith), abs_of_nonpos (by linarith)]
    linarith

/-- The sign of a number and of its rounding may be taken off. -/
theorem nearest_of_signValue (hnumber : x.isNaN = false) (hvalue : floatValue x = signValue s * q)
    (h : ∀ b, Representable b → |q - r| ≤ |b - r|) : Nearest (signValue s * r) x := by
  refine ⟨hnumber, fun b hb => ?_⟩
  rw [hvalue]
  cases s with
  | negative =>
    have := h (-b) hb.neg
    rw [signValue, neg_one_mul, neg_one_mul, ← abs_neg (b - -r), ← abs_neg (-q - -r)]
    convert this using 2 <;> ring
  | positive => simpa [signValue] using h b hb

/-- Rounding answers the nearest float, if it is given enough bits. -/
theorem nearest_roundWithAccuracy {a : Accuracy}
    (h : Brackets (ExtendedMantissa.ofMantissaAndAccuracy p a) q) (hp : 2 ^ 52 ≤ p ∨ e ≤ -1074) :
    Nearest (signValue s * (q * 2 ^ e))
      (Float.ofModel (Float.Model.pack (roundWithAccuracy .binary64 s p e a))) := by
  have hmantissa : (ExtendedMantissa.ofMantissaAndAccuracy p a >>> roundingShift p e).mantissa =
      p / 2 ^ roundingShift p e := by
    rw [mantissa_shiftRight]
    rcases a with _ | _ | _ | _ <;> rfl
  have hshifted := h.shiftRight (roundingShift p e)
  have hhigh := div_roundingShift_lt p e
  have hleast := le_add_roundingShift p e
  have hlow : e + roundingShift p e ≠ -1074 → 2 ^ 52 ≤ p / 2 ^ roundingShift p e := by
    intro hne
    by_cases hbits : 2 ^ 52 ≤ p
    · exact le_div_roundingShift hbits hne
    · -- with fewer bits the number is shifted to the least exponent
      have hlog : p.log2 ≤ 52 := by
        by_cases hzero : p = 0
        · simp [hzero]
        · exact ((Nat.log2_lt hzero).2 (by omega)).le
      rw [roundingShift] at hne
      omega
  have hround := roundWithAccuracy_eq_settled s p e a
  rw [← hmantissa] at hhigh hlow
  generalize ExtendedMantissa.ofMantissaAndAccuracy p a >>> roundingShift p e = em at *
  -- shifting the mantissa and raising the exponent leaves the value as it is
  have hvalue : q / 2 ^ roundingShift p e * 2 ^ (e + roundingShift p e) = q * 2 ^ e := by
    rw [zpow_add₀ (by norm_num), zpow_natCast]
    field_simp
  have hsettled := settled_spec (s := s) ((roundedMantissa_bounds em).2.trans hhigh) hleast
    fun hne => (hlow hne).trans (roundedMantissa_bounds em).1
  obtain ⟨hnumber, hpacked⟩ := unpackedValue_pack hsettled
    (unpackedValue_settled ((roundedMantissa_bounds em).2.trans hhigh) hleast)
    (mul_nonneg (Nat.cast_nonneg _) (two_zpow_pos _).le)
  rw [← hround] at hnumber hpacked
  refine nearest_of_signValue hnumber hpacked fun b hb => ?_
  rw [← hvalue]
  exact abs_min_sub_le hshifted hhigh hlow hb

end CardSat
