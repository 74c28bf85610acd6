import CardSat.Proofs.Float.Scaling

set_option autoImplicit false

/-! # The values of floats

What a float computes is easiest to say in exact numbers. Every float stands for a rational number
(`floatValue`), and floats that are numbers are ordered as their values are
(`float_lt_iff_value`). Infinity stands for `2 ^ 1024`, the least power of two that is too great for
a float. So there is no case for it in the order, and in sums of what is known about a float.

An operation on floats answers the float whose value is nearest to the exact result
(`Nearest`). The relation names no way of computing it: the value is compared with every number that
a float could have as its value (`Representable`). All that the bounds of a computation need follows
from such comparisons:

* a representable bound of the exact result is one of the value (`Nearest.le`, `Nearest.ge`);
* any bound is a strict one if a representable number below it is nearer (`Nearest.lt`);
* a result that is representable is computed exactly (`Nearest.eq`).

That the operations do answer the nearest float is shown in `CardSat.Proofs.Float.Arithmetic`.
-/

namespace CardSat

open Float.Model UnpackedFloat

/-! ## Values -/

/-- What infinity stands for. -/
def topValue : ℚ := 2 ^ 1024

/-- A sign as a factor. -/
def signValue : Sign → ℚ
  | .negative => -1
  | .positive => 1

/-- The rational number that a float stands for; without meaning if the float is not a number. -/
def unpackedValue : UnpackedFloat → ℚ
  | .infinity s => signValue s * topValue
  | .zero _ | .notANumber => 0
  | .finite s m e _ => signValue s * (m * 2 ^ e)

/-- The rational number that a float stands for; without meaning if the float is not a number. -/
def floatValue (x : Float) : ℚ := unpackedValue x.toModel.unpack

variable {x y : Float} {u v : UnpackedFloat} {s t : Sign} {m n : Nat} {e f : Int} {r b : ℚ}

theorem two_zpow_pos (e : Int) : (0 : ℚ) < 2 ^ e := zpow_pos (by norm_num) e

theorem two_zpow_le (h : e ≤ f) : (2 : ℚ) ^ e ≤ 2 ^ f := zpow_le_zpow_right₀ (by norm_num) h

theorem two_zpow_succ (e : Int) : (2 : ℚ) ^ (e + 1) = 2 * 2 ^ e := by
  rw [zpow_add_one₀ (by norm_num), mul_comm]

/-- Infinity stands one step above the greatest float. -/
theorem topValue_eq : topValue = 2 ^ 53 * (2 : ℚ) ^ (971 : Int) := by
  rw [topValue, zpow_ofNat, ← pow_add]

theorem topValue_pos : 0 < topValue := pow_pos (by norm_num) _

theorem two_pow_lt_topValue {k : Nat} (h : k < 1024) : (2 : ℚ) ^ k < topValue :=
  pow_lt_pow_right₀ (by norm_num) h

theorem lt_topValue (h : r ≤ 2 ^ 53) : r < topValue := h.trans_lt (two_pow_lt_topValue (by decide))

/-! ## The order of values -/

/-- The value of a positive float lies below that of infinity. -/
theorem finiteValue_bounds (hm : 0 < m) (hf : Fits m e) (hmost : e ≤ 971) :
    (0 : ℚ) < m * 2 ^ e ∧ m * 2 ^ e < topValue := by
  have hpos := two_zpow_pos e
  refine ⟨by positivity, ?_⟩
  have hlt : (m : ℚ) < 2 ^ 53 := by exact_mod_cast hf.high
  calc (m : ℚ) * 2 ^ e < 2 ^ 53 * 2 ^ e := mul_lt_mul_of_pos_right hlt hpos
    _ ≤ 2 ^ 53 * 2 ^ (971 : Int) := mul_le_mul_of_nonneg_left (two_zpow_le hmost) (by norm_num)
    _ = topValue := topValue_eq.symm

/-- A float with a greater exponent is greater. -/
theorem finiteValue_lt (hf : Fits m e) (hf' : Fits n f) (h : e < f) :
    (m : ℚ) * 2 ^ e < n * 2 ^ f := by
  have hm : (m : ℚ) < 2 ^ 53 := by exact_mod_cast hf.high
  have hn : (2 : ℚ) ^ 52 ≤ n := by
    have := hf'.low.resolve_right (by have := hf.least; omega)
    exact_mod_cast this
  calc (m : ℚ) * 2 ^ e < 2 ^ 53 * 2 ^ e := mul_lt_mul_of_pos_right hm (two_zpow_pos e)
    _ = 2 ^ 52 * 2 ^ (e + 1) := by rw [two_zpow_succ]; ring
    _ ≤ 2 ^ 52 * 2 ^ f := mul_le_mul_of_nonneg_left (two_zpow_le h) (by norm_num)
    _ ≤ n * 2 ^ f := mul_le_mul_of_nonneg_right hn (two_zpow_pos f).le

theorem finiteIndex_le_iff (hf : Fits m e) (hf' : Fits n f) :
    finiteIndex m e ≤ finiteIndex n f ↔ (m : ℚ) * 2 ^ e ≤ n * 2 ^ f := by
  have hhigh := hf.high
  have hhigh' := hf'.high
  have hleast := hf.least
  have hleast' := hf'.least
  rw [finiteIndex, finiteIndex]
  rcases lt_trichotomy e f with hlt | rfl | hgt
  · have := hf'.low.resolve_right (by omega)
    exact iff_of_true (by omega) (finiteValue_lt hf hf' hlt).le
  · rw [mul_le_mul_iff_of_pos_right (two_zpow_pos e), Nat.cast_le]
    omega
  · have := hf.low.resolve_right (by omega)
    exact iff_of_false (by omega) (finiteValue_lt hf' hf hgt).not_ge

/-- What a float without its sign has as its index and as its value. -/
inductive Measures : Int → ℚ → Prop
  | zero : Measures 0 0
  | finite {m : Nat} {e : Int} (hm : 0 < m) (hf : Fits m e) (hmost : e ≤ 971) :
      Measures (finiteIndex m e) (m * 2 ^ e)
  | infinity : Measures topIndex topValue

theorem exists_measures (hu : Canonical u) :
    ∃ s i r, Measures i r ∧ unpackedIndex u = s.apply i ∧ unpackedValue u = signValue s * r := by
  cases hu with
  | @infinity s => exact ⟨s, _, _, .infinity, rfl, rfl⟩
  | @zero s => exact ⟨.positive, 0, 0, .zero, rfl, (mul_zero _).symm⟩
  | @finite s m e hm hf hmost => exact ⟨s, _, _, .finite hm hf hmost, rfl, rfl⟩

namespace Measures

variable {i j : Int} {q r : ℚ}

theorem nonneg (h : Measures i r) : 0 ≤ i ∧ 0 ≤ r ∧ (i = 0 ↔ r = 0) := by
  cases h with
  | zero => simp
  | finite hm hf hmost =>
    have hi := (finiteIndex_bounds hm hf hmost).1
    have hr := (finiteValue_bounds hm hf hmost).1
    exact ⟨hi.le, hr.le, iff_of_false hi.ne' hr.ne'⟩
  | infinity => exact ⟨by decide, topValue_pos.le, iff_of_false (by decide) topValue_pos.ne'⟩

theorem le_iff (h : Measures i q) (h' : Measures j r) : i ≤ j ↔ q ≤ r := by
  have hi := h.nonneg
  have hj := h'.nonneg
  cases h with
  | zero => exact iff_of_true hj.1 hj.2.1
  | finite hm hf hmost =>
    have hindex := finiteIndex_bounds hm hf hmost
    have hvalue := finiteValue_bounds hm hf hmost
    cases h' with
    | zero => exact iff_of_false (not_le.2 hindex.1) (not_le.2 hvalue.1)
    | finite hm' hf' _ => exact finiteIndex_le_iff hf hf'
    | infinity => exact iff_of_true hindex.2.le hvalue.2.le
  | infinity =>
    cases h' with
    | zero => exact iff_of_false (by decide) (not_le.2 topValue_pos)
    | finite hm' hf' hmost' =>
      exact iff_of_false (not_le.2 (finiteIndex_bounds hm' hf' hmost').2)
        (not_le.2 (finiteValue_bounds hm' hf' hmost').2)
    | infinity => exact iff_of_true le_rfl le_rfl

end Measures

theorem unpackedIndex_le_iff (hu : Canonical u) (hv : Canonical v) :
    unpackedIndex u ≤ unpackedIndex v ↔ unpackedValue u ≤ unpackedValue v := by
  obtain ⟨s, i, q, hi, hindex, hvalue⟩ := exists_measures hu
  obtain ⟨t, j, r, hj, hindex', hvalue'⟩ := exists_measures hv
  obtain ⟨hi₀, hq₀, hzero⟩ := hi.nonneg
  obtain ⟨hj₀, hr₀, hzero'⟩ := hj.nonneg
  rw [hindex, hvalue, hindex', hvalue']
  cases s <;> cases t <;> simp only [Sign.apply, signValue, neg_one_mul, one_mul]
  case negative.negative => rw [neg_le_neg_iff, neg_le_neg_iff, hj.le_iff hi]
  case negative.positive => exact iff_of_true (by omega) (by linarith)
  case positive.negative =>
    -- only zero is both at least and at most zero
    have hindex : i ≤ -j ↔ i = 0 ∧ j = 0 := by omega
    rw [hindex, hzero, hzero']
    constructor
    · rintro ⟨hq, hr⟩
      rw [hq, hr, neg_zero]
    · intro h
      exact ⟨by linarith, by linarith⟩
  case positive.positive => exact hi.le_iff hj

/-- Numbers are ordered as their values. -/
theorem float_le_iff_value :
    x ≤ y ↔ x.isNaN = false ∧ y.isNaN = false ∧ floatValue x ≤ floatValue y := by
  constructor
  · intro h
    obtain ⟨hx, hy, -⟩ := float_le_iff.1 h
    exact ⟨hx, hy, (unpackedIndex_le_iff (canonical_unpack hx) (canonical_unpack hy)).1
      ((float_le_iff_index hx hy).1 h)⟩
  · rintro ⟨hx, hy, h⟩
    exact (float_le_iff_index hx hy).2
      ((unpackedIndex_le_iff (canonical_unpack hx) (canonical_unpack hy)).2 h)

theorem float_lt_iff_value :
    x < y ↔ x.isNaN = false ∧ y.isNaN = false ∧ floatValue x < floatValue y := by
  have hle : x.isNaN = false → y.isNaN = false → (y ≤ x ↔ floatValue y ≤ floatValue x) :=
    fun hx hy => by rw [float_le_iff_value, and_iff_right hy, and_iff_right hx]
  constructor
  · intro h
    obtain ⟨hx, hy, hlt⟩ := float_lt_iff.1 h
    refine ⟨hx, hy, not_le.1 fun hge => ?_⟩
    obtain ⟨-, -, hrank⟩ := float_le_iff.1 ((hle hx hy).2 hge)
    exact hlt.not_ge hrank
  · rintro ⟨hx, hy, h⟩
    refine float_lt_iff.2 ⟨hx, hy, not_le.1 fun hge => ?_⟩
    exact h.not_ge ((hle hx hy).1 (float_le_iff.2 ⟨hy, hx, hge⟩))

/-! ## Representable numbers -/

/-- A number that a float can have as its value, infinity included. -/
def Representable (r : ℚ) : Prop :=
  ∃ n f : Int, |n| ≤ 2 ^ 53 ∧ -1074 ≤ f ∧ f ≤ 971 ∧ r = n * 2 ^ f

theorem Representable.neg (h : Representable r) : Representable (-r) := by
  obtain ⟨n, f, hn, hf, hf', rfl⟩ := h
  exact ⟨-n, f, by rwa [abs_neg], hf, hf', by push_cast; ring⟩

theorem representable_intCast {n : Int} (h : |n| ≤ 2 ^ 53) : Representable n :=
  ⟨n, 0, h, by norm_num, by norm_num, by rw [zpow_zero, mul_one]⟩

theorem Representable.signValue_mul (h : Representable r) (s : Sign) :
    Representable (signValue s * r) := by
  cases s with
  | negative => simpa [signValue] using h.neg
  | positive => simpa [signValue] using h

theorem representable_topValue : Representable topValue :=
  ⟨2 ^ 53, 971, by norm_num, by norm_num, by norm_num, by rw [topValue_eq]; norm_num⟩

theorem representable_unpackedValue (hu : u.isNaN = false → Canonical u) :
    Representable (unpackedValue u) := by
  have hzero : Representable 0 := by simpa using representable_intCast (n := 0) (by norm_num)
  cases u with
  | infinity s => exact representable_topValue.signValue_mul s
  | zero s => exact hzero
  | notANumber => exact hzero
  | finite s m e hm =>
    obtain ⟨⟩ | ⟨⟩ | ⟨⟨hhigh, hleast, -⟩, hmost⟩ := hu rfl
    refine Representable.signValue_mul ⟨m, e, ?_, hleast, hmost, by push_cast; rfl⟩ s
    rw [abs_of_nonneg (Int.natCast_nonneg m)]
    exact_mod_cast hhigh.le

theorem representable_floatValue (x : Float) : Representable (floatValue x) :=
  representable_unpackedValue canonical_unpack

theorem abs_le_topValue (h : Representable r) : |r| ≤ topValue := by
  obtain ⟨n, f, hn, -, hf, rfl⟩ := h
  have hn : |(n : ℚ)| ≤ 2 ^ 53 := by exact_mod_cast hn
  rw [abs_mul, abs_of_pos (two_zpow_pos f), topValue_eq]
  exact mul_le_mul hn (two_zpow_le hf) (two_zpow_pos f).le (by norm_num)

/-- The great representable numbers are multiples of the steps between them. -/
theorem Representable.exists_multiple (h : Representable r) {f : Int}
    (hgreat : 2 ^ (52 : Nat) * 2 ^ f ≤ |r|) : ∃ k : Int, r = k * 2 ^ f := by
  obtain ⟨n, g, hn, -, -, rfl⟩ := h
  have hn : |(n : ℚ)| ≤ 2 ^ 53 := by exact_mod_cast hn
  rw [abs_mul, abs_of_pos (two_zpow_pos g)] at hgreat
  rcases le_or_gt f g with hle | hgt
  · obtain ⟨j, rfl⟩ : ∃ j : Nat, g = f + j := ⟨(g - f).toNat, by omega⟩
    refine ⟨n * 2 ^ j, ?_⟩
    rw [zpow_add₀ (by norm_num), zpow_natCast]
    push_cast
    ring
  · -- the bound is reached, and it is a multiple
    have hstep : (2 : ℚ) ^ 53 * 2 ^ g ≤ 2 ^ 52 * 2 ^ f := by
      calc (2 : ℚ) ^ 53 * 2 ^ g = 2 ^ 52 * 2 ^ (g + 1) := by rw [two_zpow_succ]; ring
        _ ≤ 2 ^ 52 * 2 ^ f := mul_le_mul_of_nonneg_left (two_zpow_le hgt) (by norm_num)
    have hle : |(n : ℚ)| * 2 ^ g ≤ 2 ^ 53 * 2 ^ g :=
      mul_le_mul_of_nonneg_right hn (two_zpow_pos g).le
    have heq : |(n : ℚ) * 2 ^ g| = 2 ^ 52 * 2 ^ f := by
      rw [abs_mul, abs_of_pos (two_zpow_pos g)]
      linarith
    rcases abs_eq (by positivity) |>.1 heq with h | h
    · exact ⟨2 ^ 52, by rw [h]; norm_num⟩
    · exact ⟨-2 ^ 52, by rw [h]; norm_num⟩

/-- Multiples of a step are a step apart. -/
theorem le_sub_step {j k f : Int} (h : (j : ℚ) * 2 ^ f < k * 2 ^ f) :
    (j : ℚ) * 2 ^ f ≤ k * 2 ^ f - 2 ^ f := by
  have hpos := two_zpow_pos f
  rw [mul_lt_mul_iff_of_pos_right hpos, Int.cast_lt] at h
  have hle : (j : ℚ) ≤ k - 1 := by exact_mod_cast Int.le_sub_one_of_lt h
  calc (j : ℚ) * 2 ^ f ≤ (k - 1) * 2 ^ f := mul_le_mul_of_nonneg_right hle hpos.le
    _ = k * 2 ^ f - 2 ^ f := by ring

/-! ## The nearest float -/

/-- The float is a number, and no representable number is nearer to `r` than its value. -/
structure Nearest (r : ℚ) (x : Float) : Prop where
  number : x.isNaN = false
  nearest : ∀ b, Representable b → |floatValue x - r| ≤ |b - r|

namespace Nearest

theorem le (h : Nearest r x) (hb : Representable b) (hle : r ≤ b) : floatValue x ≤ b := by
  by_contra hgt
  have := h.nearest b hb
  rw [abs_of_nonneg (by linarith), abs_of_nonneg (by linarith)] at this
  linarith

theorem ge (h : Nearest r x) (hb : Representable b) (hle : b ≤ r) : b ≤ floatValue x := by
  by_contra hlt
  have := h.nearest b hb
  rw [abs_of_nonpos (by linarith), abs_of_nonpos (by linarith)] at this
  linarith

/-- A number that lies nearer to a representable one below `c` than to `c` is not rounded up
to `c`. -/
theorem lt {c : ℚ} (h : Nearest r x) (hb : Representable b) (hbc : b < c) (hcloser : 2 * r < b + c) :
    floatValue x < c := by
  by_contra hge
  rcases le_or_gt r b with hle | hgt
  · have := h.le hb hle
    linarith
  · have := h.nearest b hb
    rw [abs_of_nonneg (by linarith), abs_of_neg (by linarith)] at this
    linarith

/-- A representable number is its own nearest. -/
theorem eq (h : Nearest r x) (hr : Representable r) : floatValue x = r :=
  le_antisymm (h.le hr le_rfl) (h.ge hr le_rfl)

end Nearest

end CardSat
