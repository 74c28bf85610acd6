import CardSat.Proofs.Float

set_option autoImplicit false

/-! # Floats that are at least one

A positive float is at least one when its exponent is at least that of one, `-52`, since normal
floats have mantissas of 53 bits (`one_le_iff`). Such floats are what a truncation to a machine
word does not make zero (`toUInt64_ne_zero_iff`), and they are closed under multiplication
(`one_le_mul_float`): a product is rounded by shifting it right until 53 bits are left, which gives
an exponent that is no smaller.
-/

namespace CardSat

open Float.Model UnpackedFloat

/-! ## What floats are unpacked to -/

theorem toNat_one_append (f : BitVec 52) : (1#1 ++ f).toNat = 2 ^ 52 + f.toNat := by
  rw [BitVec.toNat_append, ← Nat.shiftLeft_add_eq_or_of_lt f.isLt]
  rfl

/-- A finite float has a mantissa of 53 bits, or fewer at the least exponent. -/
theorem mantissa_of_unpack {x : Float.Model} {s : Sign} {m : Nat} {e : Int} {hm : 0 < m}
    (h : x.unpack = .finite s m e hm) :
    m < 2 ^ 53 ∧ -1074 ≤ e ∧ e ≤ 971 ∧ (2 ^ 52 ≤ m ∨ e = -1074) := by
  unfold Float.Model.unpack at h
  generalize x.toBits.toBitVec = b at h
  have hlt := (@unpackMantissa .binary64 b).isLt
  unfold UnpackedFloat.unpack at h
  dsimp only at h hlt
  split_ifs at h with hmax _ hmin hzero
  · injection h with _ hmantissa hexponent
    have hzero : (@unpackExponent .binary64 b).toNat = 0 := by rw [hmin]; rfl
    simp only [hzero, Format.exponentBias] at hexponent
    exact ⟨by omega, by omega, by omega, .inr (by omega)⟩
  · injection h with _ hmantissa hexponent
    have hpos : (@unpackExponent .binary64 b).toNat ≠ 0 :=
      fun hzero => hmin (BitVec.eq_of_toNat_eq hzero)
    have hless : (@unpackExponent .binary64 b).toNat ≠ 2047 :=
      fun htop => hmax (BitVec.eq_of_toNat_eq htop)
    have hexplt := (@unpackExponent .binary64 b).isLt
    simp only [Format.exponentBias] at hexponent
    rw [toNat_one_append] at hmantissa
    exact ⟨by omega, by omega, by omega, .inl (by omega)⟩

/-- The unpacked floats that are at least one. -/
inductive AtLeastOne : UnpackedFloat → Prop
  | infinity : AtLeastOne (.infinity .positive)
  | finite {m : Nat} {e : Int} {hm : 0 < m} (hlow : 2 ^ 52 ≤ m) (hhigh : m < 2 ^ 53)
      (he : -52 ≤ e) : AtLeastOne (.finite .positive m e hm)

variable {x y : Float}

theorem one_le_iff : 1.0 ≤ x ↔ AtLeastOne x.toModel.unpack := by
  have hone : floatRank 1.0 = toLex (1, toLex (-52, 2 ^ 52)) := rfl
  have hnan : x.isNaN = x.toModel.unpack.isNaN := rfl
  have hbits : ∀ {s m e hm}, x.toModel.unpack = .finite s m e hm →
      m < 2 ^ 53 ∧ -1074 ≤ e ∧ e ≤ 971 ∧ (2 ^ 52 ≤ m ∨ e = -1074) := mantissa_of_unpack
  rw [float_le_iff, hone, floatRank, hnan]
  generalize x.toModel.unpack = u at hbits
  constructor
  · rintro ⟨-, hnumber, hle⟩
    cases u with
    | notANumber => contradiction
    | infinity s =>
      cases s with
      | positive => exact .infinity
      | negative => simp [unpackedRank, Prod.Lex.le_iff] at hle
    | zero s => simp [unpackedRank, Prod.Lex.le_iff] at hle
    | finite s m e hm =>
      cases s with
      | positive =>
        -- a float with an exponent of at least that of one has a mantissa of 53 bits
        obtain ⟨hlt, -, -, hnormal⟩ := hbits rfl
        simp [unpackedRank, Prod.Lex.le_iff] at hle
        exact .finite (by omega) hlt (by omega)
      | negative => simp [unpackedRank, Prod.Lex.le_iff] at hle
  · intro h
    cases h with
    | infinity =>
      refine ⟨rfl, rfl, ?_⟩
      simp [unpackedRank, Prod.Lex.le_iff]
    | finite hlow hhigh he =>
      refine ⟨rfl, rfl, ?_⟩
      simp [unpackedRank, Prod.Lex.le_iff]
      omega

/-! ## Rounding -/

theorem mantissa_shiftRight (em : ExtendedMantissa) (k : Nat) :
    (em >>> k).mantissa = em.mantissa / 2 ^ k := by
  induction k with
  | zero => exact (Nat.div_one _).symm
  | succ k ih =>
    change (em >>> k).mantissa / 2 = _
    rw [ih, Nat.div_div_eq_div_mul, Nat.pow_succ]

theorem roundedMantissa_bounds (em : ExtendedMantissa) :
    em.mantissa ≤ em.roundedMantissa ∧ em.roundedMantissa ≤ em.mantissa + 1 := by
  obtain ⟨m, r, s⟩ := em
  cases r <;> cases s <;>
    simp only [ExtendedMantissa.roundedMantissa, ExtendedMantissa.accuracy,
      Accuracy.roundToNearestEven] <;> omega

/-- A number of at least 53 bits whose exponent does not become too small is shifted until 53 bits
are left. -/
theorem shiftToTargetExponent_eq {m : Nat} {e : Int} (hm : 2 ^ 52 ≤ m)
    (he : -52 ≤ e + ((m.log2 - 52 : Nat) : Int)) :
    ∃ em, shiftToTargetExponent .binary64 m e .exact = (em, e + ((m.log2 - 52 : Nat) : Int)) ∧
      2 ^ 52 ≤ em.mantissa ∧ em.mantissa < 2 ^ 53 := by
  have hlog : 52 ≤ m.log2 := (Nat.le_log2 (by omega)).2 hm
  have htarget : (Format.binary64.targetExponent (totalExponent m e) - e).toNat = m.log2 - 52 := by
    simp only [Format.targetExponent, totalExponent, Format.mantissaBits, Format.minExponent]
    omega
  refine ⟨ExtendedMantissa.mk m false false >>> (m.log2 - 52), ?_, ?_⟩
  · simp only [shiftToTargetExponent, shiftToExponent, htarget]
    rfl
  · rw [mantissa_shiftRight]
    change 2 ^ 52 ≤ m / 2 ^ (m.log2 - 52) ∧ m / 2 ^ (m.log2 - 52) < 2 ^ 53
    have hpow : 2 ^ m.log2 = 2 ^ 52 * 2 ^ (m.log2 - 52) := by
      rw [← Nat.pow_add]
      congr 1
      omega
    have hle := Nat.log2_self_le (show m ≠ 0 by omega)
    have hlt : m < 2 ^ (m.log2 + 1) := Nat.lt_log2_self
    rw [Nat.pow_succ] at hlt
    refine ⟨(Nat.le_div_iff_mul_le (Nat.two_pow_pos _)).2 (hpow ▸ hle),
      (Nat.div_lt_iff_lt_mul (Nat.two_pow_pos _)).2 ?_⟩
    rw [hpow] at hlt
    omega

theorem atLeastOne_roundWithAccuracy {m : Nat} {e : Int} (hm : 2 ^ 104 ≤ m) (he : -104 ≤ e) :
    AtLeastOne (roundWithAccuracy .binary64 .positive m e .exact) := by
  have hlog : 104 ≤ m.log2 := (Nat.le_log2 (by omega)).2 hm
  obtain ⟨em, hshift, hlow, -⟩ := shiftToTargetExponent_eq (m := m) (e := e) (by omega) (by omega)
  have hrounded := (roundedMantissa_bounds em).1
  -- Rounding up may reach a further power of two, which the second shift takes back.
  obtain ⟨em', hshift', hlow', hhigh'⟩ := shiftToTargetExponent_eq (m := em.roundedMantissa)
    (e := e + ((m.log2 - 52 : Nat) : Int)) (by omega) (by omega)
  have hne : em'.mantissa ≠ 0 := by omega
  simp only [roundWithAccuracy, hshift, hshift', hne, dif_neg, not_false_iff]
  exact .finite hlow' hhigh' (by omega)

theorem AtLeastOne.mul {u v : UnpackedFloat} (hu : AtLeastOne u) (hv : AtLeastOne v) :
    AtLeastOne (UnpackedFloat.mul .binary64 u v) := by
  cases hu with
  | infinity => cases hv <;> exact .infinity
  | @finite m e hm hlow hhigh he =>
    cases hv with
    | infinity => exact .infinity
    | @finite n f hn hlow' hhigh' hf =>
      refine atLeastOne_roundWithAccuracy ?_ (by omega)
      calc 2 ^ 104 = 2 ^ 52 * 2 ^ 52 := by norm_num
        _ ≤ m * n := Nat.mul_le_mul hlow hlow'

/-- A float whose exponent is too great is packed as infinity. -/
theorem pack_of_overflow {s : Sign} {m : Nat} {e : Int} {hm : 0 < m} (he : 2047 ≤ e + 1075) :
    Float.Model.pack (.finite s m e hm) = Float.Model.pack (.infinity s) := by
  have hpack : UnpackedFloat.pack .binary64 (.finite s m e hm) = packedInfinity .binary64 s :=
    if_pos (by simp only [Format.exponentBias]; omega)
  simp only [Float.Model.pack, hpack]
  rfl

/-- A float of 53 bits whose exponent fits is unpacked as it was packed. -/
theorem unpack_pack_of_normal {s : Sign} {m : Nat} {e : Int} {hm : 0 < m} (hlow : 2 ^ 52 ≤ m)
    (hhigh : m < 2 ^ 53) (hleast : 1 ≤ e + 1075) (hmost : e + 1075 < 2047) :
    (Float.Model.pack (.finite s m e hm)).unpack = .finite s m e hm := by
  have hlog : m.log2 + 1 = 53 := by
    have := (Nat.log2_eq_iff (by omega)).2 ⟨hlow, hhigh⟩
    omega
  obtain ⟨k, hk⟩ : ∃ k : Nat, (k : Int) = e + 1023 + 52 := ⟨(e + 1023 + 52).toNat, by omega⟩
  have hpack : UnpackedFloat.pack .binary64 (.finite s m e hm) =
      packComponents .binary64 s (BitVec.ofNat 11 k) (BitVec.ofNat 52 m) := by
    have hbiased : (e + (Format.binary64.exponentBias : Int) + (52 : Nat)).toNat = k := by
      simp only [Format.exponentBias]
      omega
    simp only [UnpackedFloat.pack, hbiased]
    exact (if_neg (by omega)).trans (if_pos hlog)
  have hexponent : (BitVec.ofNat 11 k).toNat = k := by
    rw [BitVec.toNat_ofNat, Nat.mod_eq_of_lt (by omega)]
  -- the biased exponent is neither that of infinity nor that of the least floats
  have hmax : BitVec.ofNat 11 k ≠ -1#11 := fun h => by
    rw [h] at hexponent
    change 2047 = _ at hexponent
    omega
  have hmin : BitVec.ofNat 11 k ≠ 0#11 := fun h => by
    rw [h] at hexponent
    change 0 = _ at hexponent
    omega
  have hmantissa : (1#1 ++ BitVec.ofNat 52 m).toNat = m := by
    rw [toNat_one_append, BitVec.toNat_ofNat]
    omega
  change UnpackedFloat.unpack .binary64 (UnpackedFloat.pack .binary64 _) = _
  rw [hpack, UnpackedFloat.unpack]
  simp only [unpackMantissa_packComponents, unpackExponent_packComponents,
    unpackSign_packComponents, Sign.ofBitVec_toBitVec, hmax, hmin, if_false, hmantissa, hexponent]
  congr 1
  simp only [Format.exponentBias]
  omega

/-- Packing may turn a great float into infinity, and changes nothing else. -/
theorem AtLeastOne.unpack_pack {u : UnpackedFloat} (hu : AtLeastOne u) :
    AtLeastOne (Float.Model.pack u).unpack := by
  have hinfinity : (Float.Model.pack (.infinity .positive)).unpack = .infinity .positive := rfl
  cases hu with
  | infinity => exact hinfinity ▸ .infinity
  | @finite m e hm hlow hhigh he =>
    by_cases hgreat : 2047 ≤ e + 1075
    · rw [pack_of_overflow hgreat, hinfinity]
      exact .infinity
    · rw [unpack_pack_of_normal hlow hhigh (by omega) (by omega)]
      exact .finite hlow hhigh he

theorem one_le_mul_float (hx : 1.0 ≤ x) (hy : 1.0 ≤ y) : 1.0 ≤ x * y :=
  one_le_iff.2 ((one_le_iff.1 hx).mul (one_le_iff.1 hy)).unpack_pack

/-! ## Truncation -/

theorem roundToInt_eq (s : Sign) (m : Nat) (e : Int) :
    roundToInt s m e = s.apply ((m <<< e.toNat / 2 ^ (-e).toNat : Nat) : Int) := by
  have hshift : (0 - (e - (e.toNat : Int))).toNat = (-e).toNat := by omega
  simp only [roundToInt, decreaseExponent, shiftToExponent, Int.sub_zero, hshift,
    mantissa_shiftRight]
  rfl

/-- A positive number has a whole part unless its mantissa is shifted out. -/
theorem roundToInt_pos {m : Nat} {e : Int} (hlt : m < 2 ^ 53) (hnormal : 2 ^ 52 ≤ m ∨ e = -1074) :
    0 < roundToInt .positive m e ↔ 2 ^ 52 ≤ m ∧ -52 ≤ e := by
  have hpos : 0 < roundToInt .positive m e ↔ 2 ^ (-e).toNat ≤ m <<< e.toNat := by
    rw [roundToInt_eq, Sign.apply, Int.natCast_pos, Nat.div_pos_iff]
    exact and_iff_right (Nat.two_pow_pos _)
  rw [hpos, Nat.shiftLeft_eq]
  constructor
  · intro hle
    by_contra hsmall
    have hexponent : e < -52 := by omega
    have hzero : e.toNat = 0 := by omega
    have hgreat : 2 ^ 53 ≤ 2 ^ (-e).toNat := Nat.pow_le_pow_right (by decide) (by omega)
    rw [hzero] at hle
    omega
  · rintro ⟨hlow, he⟩
    calc 2 ^ (-e).toNat ≤ 2 ^ 52 := Nat.pow_le_pow_right (by decide) (by omega)
      _ ≤ m := hlow
      _ ≤ m * 2 ^ e.toNat := Nat.le_mul_of_pos_right _ (Nat.two_pow_pos _)

theorem ofNatClamp_ne_zero {n : Nat} : UInt64.ofNatClamp n ≠ 0 ↔ 0 < n := by
  rw [UInt64.ofNatClamp]
  split
  next h =>
    rw [Ne, ← UInt64.toNat_inj, UInt64.toNat_ofNatLT]
    exact Nat.pos_iff_ne_zero.symm
  next h => exact iff_of_true (by decide) (by simp only [UInt64.size] at h; omega)

/-- A float is truncated to zero exactly if it is not at least one. -/
theorem toUInt64_ne_zero_iff : x.toUInt64 ≠ 0 ↔ 1.0 ≤ x := by
  have hbits : ∀ {s m e hm}, x.toModel.unpack = .finite s m e hm →
      m < 2 ^ 53 ∧ -1074 ≤ e ∧ e ≤ 971 ∧ (2 ^ 52 ≤ m ∨ e = -1074) := mantissa_of_unpack
  rw [one_le_iff, Float.toUInt64, Float.Model.toUInt64]
  generalize x.toModel.unpack = u at hbits
  rw [UnpackedFloat.toUInt64, ofNatClamp_ne_zero, Int.pos_iff_toNat_pos.symm]
  constructor
  · intro hpos
    cases u with
    | notANumber => contradiction
    | infinity s =>
      cases s with
      | positive => exact .infinity
      | negative => contradiction
    | zero s => contradiction
    | finite s m e hm =>
      obtain ⟨hlt, -, -, hnormal⟩ := hbits rfl
      cases s with
      | positive =>
        obtain ⟨hlow, he⟩ := (roundToInt_pos hlt hnormal).1 hpos
        exact .finite hlow hlt he
      | negative =>
        rw [toInt, roundToInt_eq, Sign.apply] at hpos
        generalize m <<< e.toNat / 2 ^ (-e).toNat = k at hpos
        omega
  · intro h
    cases h with
    | infinity => decide
    | finite hlow hhigh he => exact (roundToInt_pos hhigh (.inl hlow)).2 ⟨hlow, he⟩

end CardSat
