import CardSat.Proofs.Float.Rounding

set_option autoImplicit false

/-! # Scaling floats

Multiplication by a normal positive float keeps the order of floats, up to ties
(`float_mul_le_mul`), and a float that is not a number stays so under addition and multiplication.

The floats of one sign are counted up from zero by their bit patterns (`unpackedIndex`), which
makes their order that of integers. A product is rounded by shifting its mantissa right, and a
mantissa together with the two bits that decide how it is rounded is a number that a shift halves
(`weight`). So a greater product of the same number of bits has an index that is no smaller, and
one of more bits is shifted further.
-/

namespace CardSat

open Float.Model UnpackedFloat

variable {x y c : Float} {u v : UnpackedFloat} {s : Sign} {m n p q k : Nat} {e f : Int}

/-! ## Not a number -/

/-- An operation that gives no number if its first operand is none. -/
theorem isNaN_of_operation {f : UnpackedFloat → UnpackedFloat → UnpackedFloat}
    (hf : ∀ v, f .notANumber v = .notANumber) (h : x.isNaN = true) :
    (Float.Model.pack (f x.toModel.unpack y.toModel.unpack)).unpack.isNaN = true := by
  rw [isNaN_iff.1 h, hf]
  decide

theorem isNaN_mul (h : x.isNaN = true) : (x * y).isNaN = true :=
  isNaN_of_operation (f := UnpackedFloat.mul .binary64) (fun v => by cases v <;> rfl) h

theorem isNaN_div (h : x.isNaN = true) : (x / y).isNaN = true :=
  isNaN_of_operation (f := UnpackedFloat.div .binary64) (fun v => by cases v <;> rfl) h

theorem isNaN_add (h : x.isNaN = true) : (x + y).isNaN = true :=
  isNaN_of_operation (f := UnpackedFloat.add .binary64) (fun v => by cases v <;> rfl) h

/-! ## Counting floats -/

/-- The mantissa has 53 bits, or fewer at the least exponent. -/
structure Fits (m : Nat) (e : Int) : Prop where
  high : m < 2 ^ 53
  least : -1074 ≤ e
  low : 2 ^ 52 ≤ m ∨ e = -1074

/-- What floats are unpacked to, unless they are not a number. -/
inductive Canonical : UnpackedFloat → Prop
  | infinity {s : Sign} : Canonical (.infinity s)
  | zero {s : Sign} : Canonical (.zero s)
  | finite {s : Sign} {m : Nat} {e : Int} {hm : 0 < m} (hf : Fits m e) (hmost : e ≤ 971) :
      Canonical (.finite s m e hm)

theorem canonical_unpack {x : Float.Model} (hx : x.unpack.isNaN = false) :
    Canonical x.unpack := by
  have hbits : ∀ {s m e hm}, x.unpack = .finite s m e hm →
      m < 2 ^ 53 ∧ -1074 ≤ e ∧ e ≤ 971 ∧ (2 ^ 52 ≤ m ∨ e = -1074) := mantissa_of_unpack
  generalize x.unpack = u at hx hbits
  cases u with
  | notANumber => contradiction
  | infinity s => exact .infinity
  | zero s => exact .zero
  | finite s m e hm =>
    obtain ⟨hhigh, he, hmost, hlow⟩ := hbits rfl
    exact .finite ⟨hhigh, he, hlow⟩ hmost

/-- The index of infinity. -/
def topIndex : Int := 2047 * 2 ^ 52

/-- The number of floats from zero up to a positive finite one. -/
def finiteIndex (m : Nat) (e : Int) : Int := (e + 1074) * 2 ^ 52 + m

/-- The number of floats from zero up to a float, negated if the float is negative. -/
def unpackedIndex : UnpackedFloat → Int
  | .infinity s => s.apply topIndex
  | .zero _ | .notANumber => 0
  | .finite s m e _ => s.apply (finiteIndex m e)

theorem unpackedRank_le_iff (hu : Canonical u) (hv : Canonical v) :
    unpackedRank u ≤ unpackedRank v ↔ unpackedIndex u ≤ unpackedIndex v := by
  cases hu with
  | @infinity s =>
    cases hv with
    | @infinity t => cases s <;> cases t <;> decide
    | @zero t => cases s <;> cases t <;> decide
    | @finite t m e hm hf hmost =>
      obtain ⟨hhigh, hleast, hlow⟩ := hf
      cases s <;> cases t <;>
        simp [unpackedRank, unpackedIndex, Sign.apply, topIndex, finiteIndex, Prod.Lex.le_iff] <;>
        omega
  | @zero s =>
    cases hv with
    | @infinity t => cases s <;> cases t <;> decide
    | @zero t => exact iff_of_true (le_refl _) (le_refl _)
    | @finite t m e hm hf =>
      obtain ⟨hhigh, hleast, hlow⟩ := hf
      cases t <;>
        simp [unpackedRank, unpackedIndex, Sign.apply, finiteIndex, Prod.Lex.le_iff] <;> omega
  | @finite s m e hm hf hmost =>
    obtain ⟨hhigh, hleast, hlow⟩ := hf
    cases hv with
    | @infinity t =>
      cases s <;> cases t <;>
        simp [unpackedRank, unpackedIndex, Sign.apply, topIndex, finiteIndex, Prod.Lex.le_iff] <;>
        omega
    | @zero t =>
      cases s <;>
        simp [unpackedRank, unpackedIndex, Sign.apply, finiteIndex, Prod.Lex.le_iff] <;> omega
    -- mantissas are compared where the exponents agree, and exponents where they do not
    | @finite t m' e' hm' hf' =>
      obtain ⟨hhigh', hleast', hlow'⟩ := hf'
      cases s <;> cases t <;>
        simp [unpackedRank, unpackedIndex, Sign.apply, finiteIndex, Prod.Lex.le_iff] <;> omega

theorem float_le_iff_index (hx : x.isNaN = false) (hy : y.isNaN = false) :
    x ≤ y ↔ unpackedIndex x.toModel.unpack ≤ unpackedIndex y.toModel.unpack := by
  rw [float_le_iff, and_iff_right hx, and_iff_right hy, floatRank, floatRank]
  exact unpackedRank_le_iff (canonical_unpack hx) (canonical_unpack hy)

/-! ## Shifting and rounding -/

/-- A mantissa followed by its round bit and its sticky bit. -/
def weight (em : ExtendedMantissa) : Nat :=
  4 * em.mantissa + 2 * em.roundBit.toNat + em.stickyBit.toNat

/-- A shift halves the weight, except that it keeps whether there was a remainder. -/
theorem weight_shiftRightOne (em : ExtendedMantissa) :
    weight em.shiftRightOne = 2 * (weight em / 4) + min 1 (weight em % 4) := by
  obtain ⟨m, r, b⟩ := em
  obtain hm | hm := Nat.mod_two_eq_zero_or_one m <;> cases r <;> cases b <;>
    simp [weight, ExtendedMantissa.shiftRightOne, hm] <;> omega

theorem weight_shiftRight_mono {a b : ExtendedMantissa} (h : weight a ≤ weight b) (k : Nat) :
    weight (a >>> k) ≤ weight (b >>> k) := by
  induction k with
  | zero => exact h
  | succ k ih =>
    change weight (a >>> k).shiftRightOne ≤ weight (b >>> k).shiftRightOne
    rw [weight_shiftRightOne, weight_shiftRightOne]
    omega

theorem roundedMantissa_mono {a b : ExtendedMantissa} (h : weight a ≤ weight b) :
    a.roundedMantissa ≤ b.roundedMantissa := by
  obtain ⟨m, r, t⟩ := a
  obtain ⟨n, r', t'⟩ := b
  cases r <;> cases t <;> cases r' <;> cases t' <;>
    simp [weight, ExtendedMantissa.roundedMantissa, ExtendedMantissa.accuracy,
      Accuracy.roundToNearestEven] at h ⊢ <;> omega

/-- A number shifted right by `k` and rounded. -/
def roundedShift (p k : Nat) : Nat :=
  (ExtendedMantissa.mk p false false >>> k).roundedMantissa

theorem roundedShift_mono (h : p ≤ q) (k : Nat) : roundedShift p k ≤ roundedShift q k :=
  roundedMantissa_mono (weight_shiftRight_mono (by simp [weight]; omega) k)

theorem roundedShift_bounds (p k : Nat) :
    p / 2 ^ k ≤ roundedShift p k ∧ roundedShift p k ≤ p / 2 ^ k + 1 := by
  have h := roundedMantissa_bounds (ExtendedMantissa.mk p false false >>> k)
  rwa [mantissa_shiftRight] at h

/-- Zeros that are shifted out leave no trace. -/
theorem roundedShift_zeros (p j k : Nat) : roundedShift (p * 2 ^ j) (j + k) = roundedShift p k := by
  have hzeros : ∀ p, ExtendedMantissa.mk (p * 2 ^ j) false false >>> j = .mk p false false := by
    induction j with
    | zero => exact fun p => by rw [Nat.pow_zero, Nat.mul_one]; rfl
    | succ j ih =>
      intro p
      change (ExtendedMantissa.mk (p * 2 ^ (j + 1)) false false >>> j).shiftRightOne = _
      rw [Nat.pow_succ', ← Nat.mul_assoc, ih, ExtendedMantissa.shiftRightOne]
      simp
  have hshift : ∀ em : ExtendedMantissa, em >>> (j + k) = (em >>> j) >>> k := by
    intro em
    induction k with
    | zero => rfl
    | succ k ih => exact congrArg ExtendedMantissa.shiftRightOne ih
  rw [roundedShift, hshift, hzeros, roundedShift]

/-! ## Rounding -/

/-- How far a number of at least 53 bits is shifted before it is rounded. -/
def roundingShift (p : Nat) (e : Int) : Nat := max (p.log2 - 52) (-1074 - e).toNat

/-- The index of a rounded positive number. -/
def roundedIndex (p : Nat) (e : Int) : Int :=
  finiteIndex (roundedShift p (roundingShift p e)) (e + roundingShift p e)

theorem le_add_roundingShift (p : Nat) (e : Int) : -1074 ≤ e + roundingShift p e := by
  rw [roundingShift]
  omega

theorem div_roundingShift_lt (p : Nat) (e : Int) : p / 2 ^ roundingShift p e < 2 ^ 53 := by
  rw [Nat.div_lt_iff_lt_mul (Nat.two_pow_pos _), ← Nat.pow_add]
  exact Nat.lt_of_lt_of_le Nat.lt_log2_self
    (Nat.pow_le_pow_right (by decide) (by rw [roundingShift]; omega))

theorem le_div_roundingShift (hp : 2 ^ 52 ≤ p) (he : e + roundingShift p e ≠ -1074) :
    2 ^ 52 ≤ p / 2 ^ roundingShift p e := by
  have hlog : 52 ≤ p.log2 := (Nat.le_log2 (by omega)).2 hp
  have hshift : roundingShift p e = p.log2 - 52 := by
    rw [roundingShift] at he ⊢
    omega
  rw [Nat.le_div_iff_mul_le (Nat.two_pow_pos _), hshift, ← Nat.pow_add,
    show 52 + (p.log2 - 52) = p.log2 by omega]
  exact Nat.log2_self_le (by omega)

theorem roundedShift_le (p : Nat) (e : Int) : roundedShift p (roundingShift p e) ≤ 2 ^ 53 :=
  Nat.le_trans (roundedShift_bounds _ _).2 (div_roundingShift_lt p e)

/-- A greater number has an index that is no smaller. -/
theorem roundedIndex_mono (hp : 2 ^ 52 ≤ p) (hpq : p ≤ q) :
    roundedIndex p e ≤ roundedIndex q e := by
  have hlog : p.log2 ≤ q.log2 :=
    (Nat.le_log2 (by omega)).2 (Nat.le_trans (Nat.log2_self_le (by omega)) hpq)
  have hle : roundingShift p e ≤ roundingShift q e := by
    rw [roundingShift, roundingShift]
    omega
  rw [roundedIndex, roundedIndex, finiteIndex, finiteIndex]
  rcases Nat.lt_or_eq_of_le hle with hlt | heq
  · have hleast := le_add_roundingShift p e
    have hgreat := le_div_roundingShift (e := e) (Nat.le_trans hp hpq) (by omega)
    have hround := (roundedShift_bounds q (roundingShift q e)).1
    have hsmall := roundedShift_le p e
    omega
  · rw [← heq]
    have := roundedShift_mono hpq (roundingShift p e)
    omega

/-- A power of two in the exponent may as well stand in the number. -/
theorem roundedIndex_zeros (hp : 2 ^ 52 ≤ p) (j : Nat) :
    roundedIndex (p * 2 ^ j) e = roundedIndex p (e + j) := by
  have hlog : (p * 2 ^ j).log2 = p.log2 + j := by
    have hlow := Nat.log2_self_le (n := p) (by omega)
    have hhigh := Nat.lt_log2_self (n := p)
    rw [Nat.log2_eq_iff (by positivity), Nat.pow_add,
      show p.log2 + j + 1 = p.log2 + 1 + j by omega, Nat.pow_add]
    exact ⟨Nat.mul_le_mul_right _ hlow, Nat.mul_lt_mul_of_pos_right hhigh (Nat.two_pow_pos _)⟩
  have hlog' : 52 ≤ p.log2 := (Nat.le_log2 (by omega)).2 hp
  have hshift : roundingShift (p * 2 ^ j) e = j + roundingShift p (e + j) := by
    rw [roundingShift, roundingShift, hlog]
    omega
  rw [roundedIndex, roundedIndex, hshift, roundedShift_zeros, finiteIndex, finiteIndex]
  push_cast
  ring

theorem roundedIndex_nonneg (p : Nat) (e : Int) : 0 ≤ roundedIndex p e := by
  have hleast := le_add_roundingShift p e
  rw [roundedIndex, finiteIndex]
  omega

theorem shiftToTargetExponent_eq_shift (p : Nat) (e : Int) (a : Accuracy) :
    shiftToTargetExponent .binary64 p e a =
      (ExtendedMantissa.ofMantissaAndAccuracy p a >>> roundingShift p e,
        e + roundingShift p e) := by
  have htarget : (Format.binary64.targetExponent (totalExponent p e) - e).toNat =
      roundingShift p e := by
    simp only [Format.targetExponent, totalExponent, Format.mantissaBits, Format.minExponent,
      roundingShift]
    omega
  simp only [shiftToTargetExponent, shiftToExponent, htarget]

/-- A rounded mantissa as a float. Rounding up may have reached a power of two too many, which a
further shift takes back. -/
def settled (s : Sign) (r : Nat) (f : Int) : UnpackedFloat :=
  if h : r / 2 ^ roundingShift r f = 0 then .zero s
  else .finite s (r / 2 ^ roundingShift r f) (f + roundingShift r f) (Nat.pos_of_ne_zero h)

theorem roundWithAccuracy_eq_settled (s : Sign) (p : Nat) (e : Int) (a : Accuracy) :
    roundWithAccuracy .binary64 s p e a =
      settled s (ExtendedMantissa.ofMantissaAndAccuracy p a >>> roundingShift p e).roundedMantissa
        (e + roundingShift p e) := by
  simp only [roundWithAccuracy, shiftToTargetExponent_eq_shift, mantissa_shiftRight]
  rfl

/-- What a positive number with the index `i` is rounded to, before it is packed. -/
inductive Settled (s : Sign) (i : Int) : UnpackedFloat → Prop
  | zero (hi : i = 0) : Settled s i (.zero s)
  | finite {m : Nat} {f : Int} {hm : 0 < m} (hf : Fits m f) (hi : i = finiteIndex m f) :
      Settled s i (.finite s m f hm)

/-- Only a mantissa that was rounded up to a further power of two is shifted again. -/
theorem roundingShift_eq_zero {r : Nat} (hlt : r < 2 ^ 53) (hf : -1074 ≤ f) :
    roundingShift r f = 0 := by
  have hlog : r.log2 ≤ 52 := by
    by_cases hzero : r = 0
    · simp [hzero]
    · exact Nat.lt_succ_iff.1 ((Nat.log2_lt hzero).2 hlt)
  rw [roundingShift]
  omega

theorem roundingShift_top (hf : -1074 ≤ f) : roundingShift (2 ^ 53) f = 1 := by
  rw [roundingShift, Nat.log2_two_pow]
  omega

theorem settled_spec {r : Nat} (hhigh : r ≤ 2 ^ 53) (hf : -1074 ≤ f)
    (hlow : f ≠ -1074 → 2 ^ 52 ≤ r) (s : Sign) : Settled s (finiteIndex r f) (settled s r f) := by
  by_cases htop : r = 2 ^ 53
  · have hshift : roundingShift r f = 1 := htop ▸ roundingShift_top hf
    have hhalf : r / 2 ^ roundingShift r f = 2 ^ 52 := by
      rw [hshift, htop]
      decide
    rw [settled, dif_neg (by omega)]
    refine .finite ⟨by omega, by omega, .inl (by omega)⟩ ?_
    rw [finiteIndex, finiteIndex, hhalf, hshift, htop]
    push_cast
    ring
  · have hshift : roundingShift r f = 0 := roundingShift_eq_zero (by omega) hf
    have hsame : r / 2 ^ roundingShift r f = r := by rw [hshift, Nat.pow_zero, Nat.div_one]
    rw [settled]
    split
    next hzero => exact .zero (by rw [finiteIndex]; omega)
    next hpos =>
        refine .finite ⟨by omega, by omega, by omega⟩ ?_
        rw [hsame, hshift, Nat.cast_zero, Int.add_zero]

/-- What a number of at least 53 bits is rounded to. -/
theorem settled_roundWithAccuracy (hp : 2 ^ 52 ≤ p) (s : Sign) :
    Settled s (roundedIndex p e) (roundWithAccuracy .binary64 s p e .exact) := by
  rw [roundWithAccuracy_eq_settled]
  exact settled_spec (roundedShift_le p e) (le_add_roundingShift p e) (fun he =>
    Nat.le_trans (le_div_roundingShift hp he) (roundedShift_bounds _ _).1) s

/-! ## Packing -/

/-- A float of fewer bits at the least exponent is unpacked as it was packed. -/
theorem unpack_pack_of_subnormal {hm : 0 < m} (hlt : m < 2 ^ 52) :
    (Float.Model.pack (.finite s m (-1074) hm)).unpack = .finite s m (-1074) hm := by
  have hlog : m.log2 + 1 ≠ 53 := by
    have := (Nat.log2_lt (show m ≠ 0 by omega)).2 hlt
    omega
  have hpack : UnpackedFloat.pack .binary64 (.finite s m (-1074) hm) =
      packComponents .binary64 s 0#11 (BitVec.ofNat 52 m) := by
    simp only [UnpackedFloat.pack]
    exact (if_neg (by decide)).trans (if_neg hlog)
  have hmantissa : (BitVec.ofNat 52 m).toNat = m := by
    rw [BitVec.toNat_ofNat, Nat.mod_eq_of_lt hlt]
  -- an exponent field of zero means a subnormal number only if the mantissa is not zero
  have hne : BitVec.ofNat 52 m ≠ 0#52 := fun h => by
    rw [h] at hmantissa
    exact absurd hmantissa (by simp; omega)
  change UnpackedFloat.unpack .binary64 (UnpackedFloat.pack .binary64 _) = _
  rw [hpack, UnpackedFloat.unpack]
  have hmax : (0#11 : BitVec 11) ≠ -1#11 := by decide
  simp only [unpackMantissa_packComponents, unpackExponent_packComponents,
    unpackSign_packComponents, Sign.ofBitVec_toBitVec, hmax, if_false, if_true, hne, dif_neg,
    not_false_iff, hmantissa]
  congr 1

/-- A float that fits is unpacked as it was packed, unless it is too great. -/
theorem unpack_pack {hm : 0 < m} (hf : Fits m e) :
    (Float.Model.pack (.finite s m e hm)).unpack =
      if e ≤ 971 then .finite s m e hm else .infinity s := by
  obtain ⟨hhigh, hleast, hlow⟩ := hf
  split
  next hmost =>
      by_cases hnormal : 2 ^ 52 ≤ m
      · exact unpack_pack_of_normal hnormal hhigh (by omega) (by omega)
      · obtain rfl := hlow.resolve_left hnormal
        exact unpack_pack_of_subnormal (by omega)
  next hgreat =>
      rw [pack_of_overflow (by omega)]
      cases s <;> rfl

/-- A float that is too great becomes infinity. -/
theorem unpackedIndex_pack {i : Int} (hu : Settled s i u) :
    (Float.Model.pack u).unpack.isNaN = false ∧
      unpackedIndex (Float.Model.pack u).unpack = s.apply (min topIndex i) := by
  cases hu with
  | zero hi =>
    subst hi
    cases s <;> decide
  | @finite m f hm hf hi =>
    subst hi
    have hhigh := hf.high
    have hlow := hf.low
    rw [unpack_pack hf]
    split
    next hmost =>
        rw [min_eq_right (by rw [topIndex, finiteIndex]; omega)]
        exact ⟨rfl, rfl⟩
    next hgreat =>
        rw [min_eq_left (by rw [topIndex, finiteIndex]; omega)]
        exact ⟨rfl, rfl⟩

/-! ## Products -/

variable {hn : 0 < n}

/-- The index of the product with a positive float. -/
def productIndex (n : Nat) (f : Int) : UnpackedFloat → Int
  | .infinity s => s.apply topIndex
  | .zero _ | .notANumber => 0
  | .finite s m e _ => s.apply (min topIndex (roundedIndex (m * n) (e + f)))

theorem unpackedIndex_mul (hu : Canonical u) (hlow : 2 ^ 52 ≤ n) :
    (Float.Model.pack (u.mul .binary64 (.finite .positive n f hn))).unpack.isNaN = false ∧
      unpackedIndex (Float.Model.pack (u.mul .binary64 (.finite .positive n f hn))).unpack =
        productIndex n f u := by
  cases hu with
  | @infinity s =>
    have hmul : UnpackedFloat.mul .binary64 (.infinity s) (.finite .positive n f hn) =
        .infinity s := by cases s <;> rfl
    rw [hmul, productIndex]
    cases s <;> decide
  | @zero s =>
    have hmul : UnpackedFloat.mul .binary64 (.zero s) (.finite .positive n f hn) = .zero s := by
      cases s <;> rfl
    rw [hmul, productIndex]
    cases s <;> decide
  | @finite s m e hm =>
    have hp : 2 ^ 52 ≤ m * n := Nat.le_trans hlow (Nat.le_mul_of_pos_left n hm)
    have := unpackedIndex_pack (settled_roundWithAccuracy (e := e + f) hp s)
    cases s <;> exact this

/-- The greater of two finite positive floats has the greater product, up to ties. -/
theorem roundedIndex_mul_mono {m' : Nat} {e' : Int} (hm : 0 < m) (hn : 2 ^ 52 ≤ n)
    (h : Fits m e) (h' : Fits m' e') (hle : finiteIndex m e ≤ finiteIndex m' e') :
    roundedIndex (m * n) (e + f) ≤ roundedIndex (m' * n) (e' + f) := by
  obtain ⟨hhigh, hleast, hlow⟩ := h
  obtain ⟨hhigh', hleast', hlow'⟩ := h'
  have hp : 2 ^ 52 ≤ m * n := Nat.le_trans hn (Nat.le_mul_of_pos_left n hm)
  rw [finiteIndex, finiteIndex] at hle
  obtain rfl | hlt : e = e' ∨ e < e' := by omega
  · exact roundedIndex_mono hp (Nat.mul_le_mul_right n (by omega))
  · -- the greater one has all 53 bits, and its exponent is moved into the mantissa
    obtain ⟨j, hj⟩ : ∃ j : Nat, e' = e + (j + 1 : Nat) := ⟨(e' - e - 1).toNat, by omega⟩
    have hp' : 2 ^ 52 ≤ m' * n := Nat.le_trans hn (Nat.le_mul_of_pos_left n (by omega))
    have hgreat : m ≤ m' * 2 ^ (j + 1) := by
      calc m ≤ m' * 2 := by omega
        _ ≤ m' * 2 ^ (j + 1) := Nat.mul_le_mul_left m' (Nat.le_self_pow (by omega) 2)
    calc roundedIndex (m * n) (e + f) ≤ roundedIndex (m' * n * 2 ^ (j + 1)) (e + f) :=
          roundedIndex_mono hp (by rw [Nat.mul_right_comm]; exact Nat.mul_le_mul_right n hgreat)
      _ = roundedIndex (m' * n) (e' + f) := by
          rw [roundedIndex_zeros hp', hj, Int.add_right_comm]

theorem finiteIndex_bounds (hm : 0 < m) (hf : Fits m e) (hmost : e ≤ 971) :
    0 < finiteIndex m e ∧ finiteIndex m e < topIndex := by
  obtain ⟨hhigh, hleast, hlow⟩ := hf
  rw [finiteIndex, topIndex]
  omega

theorem productIndex_mono (hu : Canonical u) (hv : Canonical v) (hn : 2 ^ 52 ≤ n)
    (hle : unpackedIndex u ≤ unpackedIndex v) : productIndex n f u ≤ productIndex n f v := by
  have hrounded : ∀ p e, 0 ≤ roundedIndex p e := roundedIndex_nonneg
  have htop : (0 : Int) < topIndex := by decide
  cases hu with
  | @infinity s =>
    cases hv with
    | @infinity t => exact hle
    | @zero t => exact hle
    | @finite t m e hm hf hmost =>
      have := finiteIndex_bounds hm hf hmost
      have := hrounded (m * n) (e + f)
      cases s <;> cases t <;> simp only [unpackedIndex, productIndex, Sign.apply] at * <;> omega
  | @zero s =>
    cases hv with
    | @infinity t => exact hle
    | @zero t => exact hle
    | @finite t m e hm hf hmost =>
      have := finiteIndex_bounds hm hf hmost
      have := hrounded (m * n) (e + f)
      cases t <;> simp only [unpackedIndex, productIndex, Sign.apply] at * <;> omega
  | @finite s m e hm hf hmost =>
    have := finiteIndex_bounds hm hf hmost
    have := hrounded (m * n) (e + f)
    cases hv with
    | @infinity t =>
      cases s <;> cases t <;> simp only [unpackedIndex, productIndex, Sign.apply] at * <;> omega
    | @zero t =>
      cases s <;> simp only [unpackedIndex, productIndex, Sign.apply] at * <;> omega
    | @finite t m' e' hm' hf' hmost' =>
      have := finiteIndex_bounds hm' hf' hmost'
      have := hrounded (m' * n) (e' + f)
      -- two finite factors compare as their products do, in the direction of their sign
      have hup := fun h => roundedIndex_mul_mono (f := f) hm hn hf hf' h
      have hdown := fun h => roundedIndex_mul_mono (f := f) hm' hn hf' hf h
      cases s <;> cases t <;> simp only [unpackedIndex, productIndex, Sign.apply] at * <;> omega

/-- Multiplication by a normal positive float keeps the order, up to ties. -/
theorem float_mul_le_mul (hc : c.toModel.unpack = .finite .positive n f hn) (hlow : 2 ^ 52 ≤ n)
    (hxy : x ≤ y) : x * c ≤ y * c := by
  obtain ⟨hx, hy, -⟩ := float_le_iff.1 hxy
  have hmul : ∀ {z : Float}, z.isNaN = false → (z * c).isNaN = false ∧
      unpackedIndex (z * c).toModel.unpack = productIndex n f z.toModel.unpack := by
    intro z hz
    have hpack : (Float.Model.pack (z.toModel.unpack.mul .binary64
        (.finite .positive n f hn))).unpack.isNaN = false ∧ _ :=
      unpackedIndex_mul (canonical_unpack hz) hlow
    rwa [← hc] at hpack
  rw [float_le_iff_index (hmul hx).1 (hmul hy).1, (hmul hx).2, (hmul hy).2]
  exact productIndex_mono (canonical_unpack hx) (canonical_unpack hy) hlow
    ((float_le_iff_index hx hy).1 hxy)

end CardSat
