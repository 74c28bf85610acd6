import CardSat.Decision.Generator
import CardSat.Proofs.Float.Arithmetic

set_option autoImplicit false

/-! # Random numbers stay below their bounds

The generator multiplies its state and takes the remainder, in floating-point arithmetic. Its numbers
are below one as long as the state is below the modulus `M = 2 ^ 31 - 1`, and this is what every draw
preserves (`next_lt_modulus`). A whole number that is drawn from such a state is below its bound
(`below_lt`).

The bound is not obvious, for three roundings lie between two states:

* The product with the multiplier is less than `2 ^ 53`, so it is rounded to a multiple of a small
  power of two, or it is small itself.
* The quotient with the modulus may be rounded up to a whole number. Then the remainder is negative,
  which does no harm.
* Otherwise the remainder is exact. It is less than the modulus, so it is at most the greatest float
  below it.

A state that is too great is left at once if a number from it counts as an event: a number less than
a probability, which is at most one, comes from a state below the modulus (`lt_modulus_of_chance`).
So no seed makes a random position exceed its bound, unless the probability with which one is drawn
is set to more than one. A seed above `3 * 10 ^ 12` does it then, since the quotient is cut off at
the end of a machine word.
-/

namespace CardSat

namespace Generator

variable {g : Generator} {x y p : Float} {n : Nat}

/-! ## The constants -/

theorem floatValue_modulus : floatValue modulus = 2147483647 := by
  change (1 : ℚ) * ((2147483647 * 2 ^ 22 : Nat) * 2 ^ (-22 : Int)) = 2147483647
  norm_num

theorem floatValue_multiplier : floatValue multiplier = 1389796 := by
  change (1 : ℚ) * ((1389796 * 2 ^ 32 : Nat) * 2 ^ (-32 : Int)) = 1389796
  norm_num

theorem isFinite_modulus : modulus.isFinite = true := by decide +kernel

theorem isFinite_multiplier : multiplier.isFinite = true := by decide +kernel

/-- A float is below the modulus when it is a number and its value is. -/
theorem lt_modulus_iff : x < modulus ↔ x.isNaN = false ∧ floatValue x < 2147483647 := by
  rw [float_lt_iff_value, floatValue_modulus,
    and_iff_right (isNaN_of_isFinite isFinite_modulus)]

/-- The greatest float below the modulus. -/
theorem le_of_lt_modulus (h : x < modulus) : floatValue x ≤ 2147483647 - 2 ^ (-22 : Int) := by
  obtain ⟨-, hlt⟩ := lt_modulus_iff.1 h
  by_cases hgreat : 2 ^ (52 : Nat) * 2 ^ (-22 : Int) ≤ |floatValue x|
  · -- both are multiples of the step between floats
    obtain ⟨k, hk⟩ := (representable_floatValue x).exists_multiple hgreat
    have hmodulus : (2147483647 : ℚ) = (2147483647 * 2 ^ 22 : Int) * 2 ^ (-22 : Int) := by norm_num
    rw [hk, hmodulus] at hlt
    rw [hk, hmodulus]
    exact le_sub_step hlt
  · have := (abs_lt.1 (not_le.1 hgreat)).2
    norm_num at this ⊢
    linarith

/-! ## The quotient -/

/-- The quotient is cut off at the ends of a machine word. -/
theorem abs_wholePart_le (x : Float) : |wholePart x| ≤ 2 ^ 31 := by
  rw [wholePart, abs_le]
  split <;> omega

/-- The comparison of floats agrees with that of their values. -/
theorem not_lt_zero (h : 0 ≤ floatValue x) : ¬ x < 0.0 := by
  have hzero : floatValue 0.0 = 0 := rfl
  intro hlt
  have := (float_lt_iff_value.1 hlt).2.2
  linarith

/-- What a product that is not negative leaves when whole moduli are taken off. -/
theorem remainder_of_nonneg (hx : x.isFinite = true) (h₀ : 0 ≤ floatValue x)
    (hmost : floatValue x ≤ 1389796 * 2147483647) :
    ∃ q : Nat, q ≤ 1389796 ∧ wholePart (x / modulus) = q ∧
      floatValue x < (q + 1) * 2147483647 := by
  have hquotient := nearest_div hx isFinite_modulus (by rw [floatValue_modulus]; norm_num)
  rw [floatValue_modulus] at hquotient
  -- the bounds are whole numbers, so rounding does not carry the quotient across them
  have hwhole : ∀ k : Nat, k ≤ 2 ^ 53 → Representable k := fun k hk =>
    representable_intCast (n := k) (by rw [abs_of_nonneg (Int.natCast_nonneg k)]; exact_mod_cast hk)
  have hmost : floatValue (x / modulus) ≤ 1389796 :=
    hquotient.le (b := (1389796 : Nat)) (hwhole _ (by norm_num))
      (by rw [div_le_iff₀ (by norm_num)]; exact_mod_cast hmost)
  have hleast : 0 ≤ floatValue (x / modulus) :=
    hquotient.ge (b := (0 : Nat)) (hwhole _ (by norm_num)) (by push_cast; positivity) |>.trans'
      (by norm_num)
  generalize hq : (x / modulus).toUInt64.toNat = q
  have hbound : q ≤ 1389796 := by
    by_contra hgt
    have := (le_toUInt64_iff (x := x / modulus) (k := 1389797) (by norm_num) (by norm_num)).1
      (by omega)
    norm_num at this
    linarith
  refine ⟨q, hbound, ?_, ?_⟩
  · rw [wholePart, if_neg (not_lt_zero hleast), hq, min_eq_left (by omega)]
  · -- a quotient of at least `q + 1` would not be truncated to `q`
    by_contra hge
    have hnext : ((q + 1 : Nat) : ℚ) ≤ floatValue (x / modulus) := by
      refine hquotient.ge (hwhole _ (by omega)) ?_
      rw [le_div_iff₀ (by norm_num)]
      push_cast
      linarith
    have := (le_toUInt64_iff (by omega) (by omega)).2 hnext
    omega

/-- A negative product is made up for by at most half a modulus too much. -/
theorem remainder_of_neg (hx : x.isFinite = true) (h₀ : floatValue x < 0) :
    ∃ q : Nat, q ≤ 2 ^ 31 ∧ wholePart (x / modulus) = -(q : Int) ∧
      floatValue x + q * 2147483647 ≤ 2147483647 / 2 := by
  have hquotient := nearest_div hx isFinite_modulus (by rw [floatValue_modulus]; norm_num)
  rw [floatValue_modulus] at hquotient
  by_cases hneg : x / modulus < 0.0
  -- the quotient is negative and its magnitude is cut off to a whole number
  · generalize hq : (-(x / modulus)).toUInt64.toNat = k
    refine ⟨min k 0x80000000, by omega, by rw [wholePart, if_pos hneg, hq], ?_⟩
    by_cases hzero : min k 0x80000000 = 0
    · rw [hzero, Nat.cast_zero, zero_mul]
      linarith
    · -- a quotient nearer to zero would be at most a representable number short of a whole one
      have hle := (le_toUInt64_iff (x := -(x / modulus)) (k := min k 0x80000000) (by omega)
        (by omega)).1 (by omega)
      rw [floatValue_neg] at hle
      generalize hj : min k 0x80000000 = j at hle
      by_contra hgt
      have hhalf : Representable (-((2 * j - 1 : Int) * 2 ^ (-1 : Int))) := by
        refine Representable.neg ⟨2 * j - 1, -1, ?_, by norm_num, by norm_num, by push_cast; rfl⟩
        rw [abs_le]
        omega
      have hshort : -((2 * j - 1 : Int) * 2 ^ (-1 : Int)) ≤ floatValue (x / modulus) := by
        refine hquotient.ge hhalf ?_
        rw [le_div_iff₀ (by norm_num)]
        push_cast
        norm_num
        linarith
      push_cast at hshort
      norm_num at hshort
      linarith
  · -- the quotient is rounded to zero
    have hleast : 0 ≤ floatValue (x / modulus) := by
      by_contra hlt
      exact hneg (float_lt_iff_value.2 ⟨hquotient.number, by decide +kernel, not_le.1 hlt⟩)
    have hmost : floatValue (x / modulus) ≤ 0 := by
      have := hquotient.le (b := ((0 : Int) : ℚ)) (representable_intCast (by norm_num)) (by
        push_cast
        exact (div_neg_of_neg_of_pos h₀ (by norm_num)).le)
      simpa using this
    have hzero : (x / modulus).toUInt64.toNat = 0 := by
      by_contra hpos
      have := (le_toUInt64_iff (x := x / modulus) (k := 1) (by norm_num) (by norm_num)).1 (by omega)
      norm_num at this
      linarith
    refine ⟨0, by norm_num, by rw [wholePart, if_neg hneg, hzero]; rfl, ?_⟩
    rw [Nat.cast_zero, zero_mul]
    linarith

/-! ## The next state -/

/-- The product with the multiplier, of a state below the modulus. -/
theorem product_of_lt_modulus (h : x < modulus) : (x * multiplier).isNaN = false ∧
    floatValue (x * multiplier) ≤ 1389796 * 2147483647 := by
  obtain ⟨hnumber, hlt⟩ := lt_modulus_iff.1 h
  by_cases hx : x.isFinite = true
  · have hproduct := nearest_mul hx isFinite_multiplier
    rw [floatValue_multiplier] at hproduct
    refine ⟨hproduct.number, hproduct.le (b := (1389796 * 2147483647 : Int)) ?_ ?_ |>.trans_eq ?_⟩
    · exact representable_intCast (by norm_num)
    · push_cast
      linarith
    · norm_num
  · have hinfinite := unpack_eq_negative hnumber
      (lt_topValue (hlt.le.trans (by norm_num))) (by simpa using hx)
    obtain ⟨hnumber', hvalue⟩ := floatValue_of_infinity (unpack_scale_of_infinity hinfinite
      isFinite_multiplier (by rw [floatValue_multiplier]; norm_num)).1
    exact ⟨hnumber', by rw [hvalue, signValue]; linarith [topValue_pos]⟩

/-- The whole moduli that are taken off. -/
theorem nearest_moduli {q : Int} (hq : |q| ≤ 2 ^ 31) :
    Nearest (q * 2147483647) (Float.ofInt q * modulus) ∧
      (Float.ofInt q * modulus).isFinite = true := by
  obtain ⟨hfinite, hvalue⟩ := floatValue_ofInt (k := q) (by omega)
  have hproduct := nearest_mul hfinite isFinite_modulus
  rw [hvalue, floatValue_modulus] at hproduct
  have hq : |(q : ℚ)| ≤ 2 ^ 31 := by exact_mod_cast hq
  have hbound : |(q : ℚ) * 2147483647| ≤ 2 ^ 62 := by
    rw [abs_mul]
    calc |(q : ℚ)| * |2147483647| ≤ 2 ^ 31 * 2 ^ 31 :=
          mul_le_mul hq (by norm_num) (abs_nonneg _) (by norm_num)
      _ = 2 ^ 62 := by norm_num
  have htop : Representable (2 ^ 62) := ⟨2 ^ 53, 9, by norm_num, by norm_num, by norm_num, by
    norm_num⟩
  refine ⟨hproduct, isFinite_iff.2 ⟨hproduct.number, ?_⟩⟩
  refine lt_of_le_of_lt (abs_le.2 ⟨?_, ?_⟩) (two_pow_lt_topValue (k := 62) (by decide))
  · exact hproduct.ge htop.neg (abs_le.1 hbound).1
  · exact hproduct.le htop (abs_le.1 hbound).2

/-- The greatest float below the modulus bounds what is rounded to below the modulus. -/
theorem lt_modulus_of_nearest {r : ℚ} (h : Nearest r x) (hr : r ≤ 2147483647 - 2 ^ (-22 : Int)) :
    x < modulus := by
  refine lt_modulus_iff.2 ⟨h.number, lt_of_le_of_lt (h.le ?_ hr) ?_⟩
  · exact ⟨2147483647 * 2 ^ 22 - 1, -22, by norm_num, by norm_num, by norm_num, by norm_num⟩
  · have := two_zpow_pos (-22)
    linarith

/-- Moduli that are added may be rounded up, by less than a step between floats. -/
theorem le_floatValue_moduli {q : Nat} (hq : q ≤ 2 ^ 31) :
    -(q * 2147483647 + 511) ≤ floatValue (Float.ofInt (-(q : Int)) * modulus) := by
  obtain ⟨hmoduli, -⟩ := nearest_moduli (q := -(q : Int)) (by rw [abs_le]; omega)
  -- the multiple of the step that comes next
  obtain ⟨k, hk⟩ : ∃ k : Nat, k = (q * 2147483647 + 511) / 512 := ⟨_, rfl⟩
  have hstep : ((k * 512 : Nat) : ℚ) ≤ (q * 2147483647 + 511 : Nat) := by
    rw [Nat.cast_le]
    omega
  have hnext : ((q * 2147483647 : Nat) : ℚ) ≤ (k * 512 : Nat) := by
    rw [Nat.cast_le]
    omega
  have hmultiple : Representable (-((k : Int) * 2 ^ (9 : Int))) := by
    refine Representable.neg ⟨k, 9, ?_, by norm_num, by norm_num, rfl⟩
    rw [abs_of_nonneg (Int.natCast_nonneg k)]
    omega
  push_cast at hstep hnext hmultiple hmoduli
  have hround := hmoduli.ge hmultiple (by norm_num; linarith)
  linarith

/-- Moduli that are taken off are not rounded. -/
theorem floatValue_moduli {q : Nat} (hq : q ≤ 1389796) :
    floatValue (Float.ofInt q * modulus) = q * 2147483647 := by
  obtain ⟨hmoduli, -⟩ := nearest_moduli (q := q) (by rw [abs_le]; omega)
  have hexact : Representable ((q * 2147483647 : Int) : ℚ) :=
    representable_intCast (by rw [abs_of_nonneg (by omega)]; omega)
  push_cast at hmoduli hexact
  exact hmoduli.eq hexact

/-- What is left of a product is below the modulus. -/
theorem remainder_lt_modulus (hnumber : x.isNaN = false)
    (hmost : floatValue x ≤ 1389796 * 2147483647) :
    x - Float.ofInt (wholePart (x / modulus)) * modulus < modulus := by
  obtain ⟨-, hfinite⟩ := nearest_moduli (abs_wholePart_le (x / modulus))
  -- a product that is a number and not too great is finite or minus infinity
  by_cases hx : x.isFinite = true
  · have hrest := nearest_sub hx hfinite
    refine lt_modulus_of_nearest hrest ?_
    rcases lt_or_ge (floatValue x) 0 with hneg | h₀
    · obtain ⟨q, hq, hwhole, hover⟩ := remainder_of_neg hx hneg
      have hmoduli := le_floatValue_moduli hq
      rw [hwhole]
      norm_num at hover ⊢
      linarith
    · obtain ⟨q, hq, hwhole, hless⟩ := remainder_of_nonneg hx h₀ hmost
      rw [hwhole, floatValue_moduli hq]
      by_cases hgreat : 2 ^ (52 : Nat) * 2 ^ (-22 : Int) ≤ |floatValue x|
      · -- the remainder is a multiple of the step
        obtain ⟨k, hk⟩ := (representable_floatValue x).exists_multiple hgreat
        have hmoduli : ((q : ℚ) + 1) * 2147483647 =
            ((q + 1) * 2147483647 * 2 ^ 22 : Int) * 2 ^ (-22 : Int) := by
          push_cast
          norm_num
          ring
        rw [hk, hmoduli] at hless
        have hle := le_sub_step hless
        rw [← hk, ← hmoduli] at hle
        linarith
      · rw [abs_of_nonneg h₀] at hgreat
        have : (0 : ℚ) ≤ q * 2147483647 := by positivity
        norm_num at hgreat ⊢
        linarith
  · obtain ⟨hnumber', hvalue⟩ := floatValue_of_infinity (unpack_sub_of_infinity
      (unpack_eq_negative hnumber (lt_topValue (hmost.trans (by norm_num)))
        (by simpa using hx)) hfinite)
    exact lt_modulus_iff.2 ⟨hnumber', by rw [hvalue, signValue]; linarith [topValue_pos]⟩

/-- A state below the modulus is followed by one below the modulus. -/
theorem next_lt_modulus (h : g.seed < modulus) : g.next.2.seed < modulus :=
  have hproduct := product_of_lt_modulus h
  remainder_lt_modulus hproduct.1 hproduct.2

/-! ## Draws -/

/-- A number that is drawn is at most the greatest float below one. -/
theorem draw_le (h : x < modulus) :
    (x / modulus).isNaN = false ∧ floatValue (x / modulus) ≤ 1 - 2 ^ (-53 : Int) := by
  obtain ⟨hnumber, hlt⟩ := lt_modulus_iff.1 h
  have hle := le_of_lt_modulus h
  by_cases hx : x.isFinite = true
  · have hquotient := nearest_div hx isFinite_modulus (by rw [floatValue_modulus]; norm_num)
    rw [floatValue_modulus] at hquotient
    refine ⟨hquotient.number, hquotient.le ?_ ?_⟩
    · exact ⟨2 ^ 53 - 1, -53, by norm_num, by norm_num, by norm_num, by norm_num⟩
    · rw [div_le_iff₀ (by norm_num)]
      norm_num at hle ⊢
      linarith
  · have hinfinite := unpack_eq_negative hnumber (lt_topValue (hlt.le.trans (by norm_num)))
      (by simpa using hx)
    obtain ⟨hnumber', hvalue⟩ := floatValue_of_infinity (unpack_scale_of_infinity hinfinite
      isFinite_modulus (by rw [floatValue_modulus]; norm_num)).2
    refine ⟨hnumber', ?_⟩
    have := topValue_pos
    rw [hvalue, signValue]
    norm_num
    linarith

/-- There is a float less than a step below a whole number. -/
theorem exists_representable_below (hn : 0 < n) (hlt : n < 2 ^ 53) :
    ∃ b, Representable b ∧ b < n ∧ n - 2 * (n * 2 ^ (-53 : Int)) < b := by
  obtain ⟨j, hlow, hhigh⟩ : ∃ j : Nat, 2 ^ j ≤ n ∧ n < 2 ^ (j + 1) :=
    ⟨n.log2, Nat.log2_self_le hn.ne', Nat.lt_log2_self⟩
  have hj : j < 53 := (Nat.pow_lt_pow_iff_right (by norm_num)).1 (hlow.trans_lt hlt)
  have hpos : (0 : ℚ) < n * 2 ^ (-53 : Int) := mul_pos (by exact_mod_cast hn) (two_zpow_pos _)
  have hpower : (2 : ℚ) ^ ((j : Int) - 53) = 2 ^ j * 2 ^ (-53 : Int) := by
    rw [sub_eq_add_neg, zpow_add₀ (by norm_num), zpow_natCast]
  rcases Nat.eq_or_lt_of_le hlow with heq | hgt
  · -- below a power of two the floats lie closer
    have hvalue : ((2 ^ 53 - 1 : Int) : ℚ) * 2 ^ ((j : Int) - 53) = n - n * 2 ^ (-53 : Int) := by
      rw [hpower, ← heq]
      push_cast
      norm_num
      ring
    refine ⟨_, ⟨2 ^ 53 - 1, j - 53, by norm_num, by omega, by omega, rfl⟩, ?_⟩
    rw [hvalue]
    constructor <;> linarith
  · have hscale : (n : ℚ) = (n * 2 ^ (52 - j) : Int) * 2 ^ ((j : Int) - 52) := by
      have hsplit : (j : Int) - 52 = -((52 - j : Nat) : Int) := by omega
      rw [hsplit, zpow_neg, zpow_natCast]
      push_cast
      field_simp
    have hsmall : (n : Int) * 2 ^ (52 - j) ≤ 2 ^ 53 := by
      have : n * 2 ^ (52 - j) ≤ 2 ^ (j + 1) * 2 ^ (52 - j) := Nat.mul_le_mul_right _ hhigh.le
      rw [← Nat.pow_add, show j + 1 + (52 - j) = 53 by omega] at this
      exact_mod_cast this
    have hone : 1 ≤ (n : Int) * 2 ^ (52 - j) := by
      have : 0 < n * 2 ^ (52 - j) := Nat.mul_pos hn (Nat.two_pow_pos _)
      exact_mod_cast this
    have hvalue : ((n * 2 ^ (52 - j) - 1 : Int) : ℚ) * 2 ^ ((j : Int) - 52) =
        n - 2 * 2 ^ ((j : Int) - 53) := by
      have hdouble : (2 : ℚ) * 2 ^ ((j : Int) - 53) = 2 ^ ((j : Int) - 52) := by
        rw [← two_zpow_succ]
        congr 1
        ring
      rw [Int.cast_sub, sub_mul, ← hscale, hdouble]
      norm_num
    -- the step is less than twice `n * 2 ^ -53`, for `n` is above the power of two
    have hmore : (2 : ℚ) ^ ((j : Int) - 53) < n * 2 ^ (-53 : Int) := by
      rw [hpower]
      exact mul_lt_mul_of_pos_right (by exact_mod_cast hgt) (two_zpow_pos _)
    have hstep := two_zpow_pos ((j : Int) - 53)
    refine ⟨((n * 2 ^ (52 - j) - 1 : Int) : ℚ) * 2 ^ ((j : Int) - 52), ⟨n * 2 ^ (52 - j) - 1, j - 52,
      by rw [abs_le]; constructor <;> linarith, by omega, by omega, rfl⟩, ?_⟩
    rw [hvalue]
    constructor <;> linarith

/-- A product with a number below one is rounded to less than the other factor. The float below `n`
is a competitor, and the product is nearer to it than to `n`. -/
theorem floatValue_mul_lt {r : ℚ} (hn : 0 < n) (hlt : n < 2 ^ 53) (hr : r ≤ 1 - 2 ^ (-53 : Int))
    (h : Nearest (r * n) x) : floatValue x < n := by
  obtain ⟨b, hb, hbelow, hnear⟩ := exists_representable_below hn hlt
  have hproduct : r * n ≤ n - n * 2 ^ (-53 : Int) := by
    calc r * n ≤ (1 - 2 ^ (-53 : Int)) * n := mul_le_mul_of_nonneg_right hr (Nat.cast_nonneg n)
      _ = n - n * 2 ^ (-53 : Int) := by ring
  exact h.lt hb hbelow (by linarith)

/-- A whole number that is drawn is below its bound. -/
theorem below_lt (h : g.seed < modulus) (hn : 0 < n) (hlt : n < 2 ^ 53) : (g.below n).1 < n := by
  obtain ⟨hnumber, hle⟩ := draw_le (next_lt_modulus h)
  obtain ⟨hfinite, hvalue⟩ := floatValue_ofNat hlt
  have hpos : (0 : ℚ) < n := by exact_mod_cast hn
  have hdraw : (g.below n).1 = (g.next.2.seed / modulus * n.toFloat).toUInt64.toNat := rfl
  suffices floatValue (g.next.2.seed / modulus * n.toFloat) < n by
    rw [hdraw]
    by_contra hge
    exact absurd ((le_toUInt64_iff hn (by omega)).1 (not_lt.1 hge)) (not_le.2 this)
  generalize g.next.2.seed / modulus = x at *
  by_cases hx : x.isFinite = true
  · have hproduct := nearest_mul hx hfinite
    rw [hvalue] at hproduct
    exact floatValue_mul_lt hn hlt hle hproduct
  · have hinfinite := unpack_eq_negative hnumber
      (lt_topValue (hle.trans (by norm_num))) (by simpa using hx)
    rw [(floatValue_of_infinity (unpack_scale_of_infinity hinfinite hfinite
      (by rwa [hvalue])).1).2, signValue]
    linarith [topValue_pos]

/-- A number that is less than a probability comes from a state below the modulus. -/
theorem lt_modulus_of_draw (h : x / modulus < p) (hp : ¬ p > 1.0) : x < modulus := by
  have hmodulus : 0 < floatValue modulus := by
    rw [floatValue_modulus]
    norm_num
  obtain ⟨hnumber, hnumber', hlt⟩ := float_lt_iff_value.1 h
  -- a draw that is less than a probability is less than one
  have hdraw : floatValue (x / modulus) < 1 := by
    refine hlt.trans_le (not_lt.1 fun hgt => hp ?_)
    exact float_lt_iff_value.2 ⟨by decide +kernel, hnumber', by rwa [floatValue_one]⟩
  have hx : x.isNaN = false := by
    by_contra hnan
    rw [isNaN_div (Bool.eq_true_of_not_eq_false hnan)] at hnumber
    cases hnumber
  refine lt_modulus_iff.2 ⟨hx, not_le.1 fun hge => ?_⟩
  by_cases hfinite : x.isFinite = true
  · have hquotient := nearest_div hfinite isFinite_modulus hmodulus.ne'
    rw [floatValue_modulus] at hquotient
    have := hquotient.ge (b := ((1 : Int) : ℚ)) (representable_intCast (by norm_num)) (by
      rw [le_div_iff₀ (by norm_num)]
      push_cast
      linarith)
    push_cast at this
    linarith
  · obtain ⟨s, hs⟩ := exists_infinity hx (by simpa using hfinite)
    rw [(floatValue_of_infinity hs).2] at hge
    rw [(floatValue_of_infinity (unpack_scale_of_infinity hs isFinite_modulus hmodulus).2).2]
      at hdraw
    have := lt_topValue (r := 1) (by norm_num)
    cases s with
    | negative =>
      rw [signValue] at hge
      linarith
    | positive =>
      rw [signValue] at hdraw
      linarith

/-- After an event whose probability is at most one, the state is below the modulus. -/
theorem lt_modulus_of_chance (h : (g.chance p).1 = true) (hp : ¬ p > 1.0) :
    (g.chance p).2.seed < modulus := by
  rw [chance] at h ⊢
  split at h
  next hpos =>
      rw [if_pos hpos]
      exact lt_modulus_of_draw (of_decide_eq_true h) hp
  next => cases h

/-- A draw leaves the state below the modulus. -/
theorem chance_lt_modulus (h : g.seed < modulus) (p : Float) : (g.chance p).2.seed < modulus := by
  rw [chance]
  split
  · exact next_lt_modulus h
  · exact h

end Generator

end CardSat
