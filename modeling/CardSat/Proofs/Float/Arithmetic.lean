import CardSat.Proofs.Float.Nearest

set_option autoImplicit false

/-! # Float arithmetic

The operations on finite floats answer the float nearest to the exact result: products
(`nearest_mul`), quotients (`nearest_div`) and differences (`nearest_sub`). Negation is exact
(`floatValue_neg`), and so are conversions of integers of at most 53 bits (`floatValue_ofInt`).
Truncation to a machine word is described from below: the word is at least a positive number exactly
if the float is (`le_toUInt64_iff`).

An operation either hands its exact result to rounding or involves a zero and is exact itself. So
each proof goes through the zeros and then checks that rounding is given enough bits. A product has
them since one of the factors has 53 bits, or both have the least exponent. A quotient has them
since the dividend is extended first, and a difference since its exponent is decreased.
-/

namespace CardSat

open Float.Model UnpackedFloat

variable {x y : Float} {u v : UnpackedFloat} {s t : Sign} {m n : Nat} {e f : Int} {r : ℚ}

/-! ## Finite floats -/

/-- What finite floats are unpacked to. -/
inductive Ordinary : UnpackedFloat → Prop
  | zero {s : Sign} : Ordinary (.zero s)
  | finite {s : Sign} {m : Nat} {e : Int} {hm : 0 < m} (hf : Fits m e) (hmost : e ≤ 971) :
      Ordinary (.finite s m e hm)

theorem ordinary_unpack (h : x.isFinite = true) : Ordinary x.toModel.unpack := by
  have hfinite : x.toModel.unpack.isFinite = true := h
  have hnumber : x.toModel.unpack.isNaN = false := by
    cases hu : x.toModel.unpack <;> rw [hu] at hfinite <;> first | rfl | cases hfinite
  have hcanonical := canonical_unpack hnumber
  generalize x.toModel.unpack = u at *
  cases hcanonical with
  | infinity => cases hfinite
  | zero => exact .zero
  | finite hf hmost => exact .finite hf hmost

theorem abs_signValue_mul (s : Sign) (r : ℚ) : |signValue s * r| = |r| := by
  cases s <;> simp [signValue]

/-- The finite floats are the numbers whose value lies between those of the infinities. -/
theorem isFinite_iff : x.isFinite = true ↔ x.isNaN = false ∧ |floatValue x| < topValue := by
  have htop := topValue_pos
  have hcanonical : x.toModel.unpack.isNaN = false → Canonical x.toModel.unpack := canonical_unpack
  change x.toModel.unpack.isFinite = true ↔
    x.toModel.unpack.isNaN = false ∧ |unpackedValue x.toModel.unpack| < topValue
  generalize x.toModel.unpack = u at hcanonical
  cases u with
  | notANumber => exact iff_of_false (by decide) fun h => by cases h.1
  | infinity s =>
    refine iff_of_false (by simp [UnpackedFloat.isFinite]) fun h => ?_
    rw [unpackedValue, abs_signValue_mul, abs_of_pos htop] at h
    exact lt_irrefl _ h.2
  | zero s => exact iff_of_true rfl ⟨rfl, by rwa [unpackedValue, abs_zero]⟩
  | finite s m e hm =>
    obtain ⟨⟩ | ⟨⟩ | ⟨hf, hmost⟩ := hcanonical rfl
    obtain ⟨hpos, hlt⟩ := finiteValue_bounds hm hf hmost
    exact iff_of_true rfl ⟨rfl, by rwa [unpackedValue, abs_signValue_mul, abs_of_pos hpos]⟩

theorem isNaN_of_isFinite (h : x.isFinite = true) : x.isNaN = false := (isFinite_iff.1 h).1

/-- A float with the exact value is the nearest. -/
theorem nearest_of_eq (hnumber : x.isNaN = false) (hvalue : floatValue x = r) : Nearest r x :=
  ⟨hnumber, fun b _ => by rw [hvalue, sub_self, abs_zero]; exact abs_nonneg _⟩

/-- What is canonical is unpacked as it was packed. -/
theorem unpack_pack_of_canonical (hu : Canonical u) : (Float.Model.pack u).unpack = u := by
  cases hu with
  | @infinity s => cases s <;> rfl
  | @zero s => cases s <;> rfl
  | finite hf hmost => rw [unpack_pack hf, if_pos hmost]

theorem nearest_pack (hu : Canonical u) (hnumber : u.isNaN = false) :
    Nearest (unpackedValue u) (Float.ofModel (Float.Model.pack u)) := by
  have hpacked := unpack_pack_of_canonical hu
  refine nearest_of_eq ?_ ?_
  · change (Float.Model.pack u).unpack.isNaN = false
    rw [hpacked, hnumber]
  · change unpackedValue (Float.Model.pack u).unpack = unpackedValue u
    rw [hpacked]

theorem nearest_zero (s : Sign) : Nearest 0 (Float.ofModel (Float.Model.pack (.zero s))) :=
  nearest_pack .zero rfl

/-! ## Products

A product of mantissas has as many bits as both factors together, and is handed to rounding without
loss. -/

theorem signValue_mul (s t : Sign) : signValue (s * t) = signValue s * signValue t := by
  cases s <;> cases t
  · exact (by norm_num : (1 : ℚ) = -1 * -1)
  · exact (by norm_num : (-1 : ℚ) = -1 * 1)
  · exact (by norm_num : (-1 : ℚ) = 1 * -1)
  · exact (by norm_num : (1 : ℚ) = 1 * 1)

theorem nearest_mul (hx : x.isFinite = true) (hy : y.isFinite = true) :
    Nearest (floatValue x * floatValue y) (x * y) := by
  have hu := ordinary_unpack hx
  have hv := ordinary_unpack hy
  change Nearest (unpackedValue x.toModel.unpack * unpackedValue y.toModel.unpack)
    (Float.ofModel (Float.Model.pack (UnpackedFloat.mul .binary64 x.toModel.unpack
      y.toModel.unpack)))
  generalize x.toModel.unpack = u at hu
  generalize y.toModel.unpack = v at hv
  cases hu with
  | @zero s =>
    rw [unpackedValue, zero_mul]
    cases hv <;> exact nearest_zero _
  | @finite s m e hm hf hmost =>
    cases hv with
    | @zero t =>
      rw [unpackedValue, unpackedValue, mul_zero]
      exact nearest_zero _
    | @finite t n f hn hf' hmost' =>
      -- either there are 53 bits already, or both exponents are the least
      have hbits : 2 ^ 52 ≤ m * n ∨ e + f ≤ -1074 := by
        rcases hf.low with hlow | he
        · exact .inl (hlow.trans (Nat.le_mul_of_pos_right m hn))
        · rcases hf'.low with hlow | hf'
          · exact .inl (hlow.trans (Nat.le_mul_of_pos_left n hm))
          · exact .inr (by omega)
      have hround := nearest_roundWithAccuracy (s := s * t) (a := .exact) .exact hbits
      have hvalue : unpackedValue (.finite s m e hm) * unpackedValue (.finite t n f hn) =
          signValue (s * t) * ((m * n : Nat) * 2 ^ (e + f)) := by
        rw [unpackedValue, unpackedValue, signValue_mul, zpow_add₀ (by norm_num)]
        push_cast
        ring
      rw [hvalue]
      exact hround

/-! ## Quotients -/

theorem signValue_div (s t : Sign) : signValue (s / t) = signValue s * signValue t := by
  rw [← signValue_mul]
  cases s <;> cases t <;> rfl

/-- What is left of a division says where the quotient lies. -/
theorem brackets_div {p n : Nat} (hn : 0 < n) :
    Brackets (ExtendedMantissa.ofMantissaAndAccuracy (p / n) (accuracyOfFraction (p % n) n))
      (p / n) := by
  have hpos : (0 : ℚ) < n := by exact_mod_cast hn
  -- the quotient is a whole number and a fraction, whose double is compared with one
  have hrest : (p : ℚ) / n = (p / n : Nat) + (p % n : Nat) / n := by
    rw [div_eq_iff hpos.ne', add_mul, div_mul_cancel₀ _ hpos.ne']
    exact_mod_cast (Nat.div_add_mod' p n).symm
  have hless : ((p % n : Nat) : ℚ) < n := by exact_mod_cast Nat.mod_lt p hn
  have hhalf : ((p % n : Nat) : ℚ) / n < 1 := (div_lt_one hpos).2 hless
  generalize p / n = k at hrest ⊢
  generalize p % n = j at *
  rw [hrest, accuracyOfFraction]
  split
  next hzero =>
      rw [hzero, Nat.cast_zero, zero_div, add_zero]
      exact .exact
  next hzero =>
      have hsome : (0 : ℚ) < (j : ℚ) / n := by
        have : 0 < j := Nat.pos_of_ne_zero hzero
        positivity
      rcases hcompare : compare (2 * j) n with _ | _ | _
      · have hlt : ((2 * j : Nat) : ℚ) < n := by exact_mod_cast compare_lt_iff_lt.1 hcompare
        push_cast at hlt
        refine .low (by linarith) (add_lt_add_right ?_ _)
        rw [div_lt_div_iff₀ hpos (by norm_num)]
        linarith
      · have heq : ((2 * j : Nat) : ℚ) = n := by exact_mod_cast compare_eq_iff_eq.1 hcompare
        push_cast at heq
        have hmiddle : (j : ℚ) / n = 1 / 2 := by
          rw [div_eq_div_iff hpos.ne' (by norm_num)]
          linarith
        rw [hmiddle]
        exact .half
      · have hgt : (n : ℚ) < (2 * j : Nat) := by exact_mod_cast compare_gt_iff_gt.1 hcompare
        push_cast at hgt
        refine .high (add_lt_add_right ?_ _) (add_lt_add_right hhalf _)
        rw [div_lt_div_iff₀ (by norm_num) hpos]
        linarith

/-- The quotient has 53 bits, unless its exponent is at most the least. -/
theorem divCore_bits (hm : 0 < m) (hn : 0 < n) :
    2 ^ 52 ≤ (divCore .binary64 m e n f).1 ∨ (divCore .binary64 m e n f).2.1 ≤ -1074 := by
  simp only [divCore, Format.targetExponent, totalExponent, Format.mantissaBits, Format.minExponent]
  generalize hk : (e - f - min (e - f) (max ((m.log2 : Int) + 1 + e - (n.log2 + 1 + f) -
    ((1 + 52 : Nat) : Int)) (3 - 2 ^ (11 - 1) - ((1 + 52 : Nat) : Int)))).toNat = k
  by_cases hleast : (m.log2 : Int) + 1 + e - (n.log2 + 1 + f) - 53 ≤ -1074
  · right
    omega
  · left
    have hshift : n.log2 + 1 + 52 ≤ m.log2 + k := by omega
    rw [Nat.le_div_iff_mul_le hn, Nat.shiftLeft_eq]
    calc 2 ^ 52 * n ≤ 2 ^ 52 * 2 ^ (n.log2 + 1) := Nat.mul_le_mul_left _ Nat.lt_log2_self.le
      _ = 2 ^ (n.log2 + 1 + 52) := by rw [Nat.mul_comm, ← Nat.pow_add]
      _ ≤ 2 ^ (m.log2 + k) := Nat.pow_le_pow_right (by decide) hshift
      _ = 2 ^ m.log2 * 2 ^ k := Nat.pow_add _ _ _
      _ ≤ m * 2 ^ k := Nat.mul_le_mul_right _ (Nat.log2_self_le hm.ne')

theorem nearest_div (hx : x.isFinite = true) (hy : y.isFinite = true) (hne : floatValue y ≠ 0) :
    Nearest (floatValue x / floatValue y) (x / y) := by
  have hu := ordinary_unpack hx
  have hv := ordinary_unpack hy
  change unpackedValue y.toModel.unpack ≠ 0 at hne
  change Nearest (unpackedValue x.toModel.unpack / unpackedValue y.toModel.unpack)
    (Float.ofModel (Float.Model.pack (UnpackedFloat.div .binary64 x.toModel.unpack
      y.toModel.unpack)))
  generalize x.toModel.unpack = u at hu
  generalize y.toModel.unpack = v at hv hne
  cases hv with
  | zero => exact absurd rfl hne
  | @finite t n f hn hf' hmost' =>
    cases hu with
    | @zero s =>
      rw [unpackedValue, zero_div]
      exact nearest_zero _
    | @finite s m e hm hf hmost =>
      have hround := nearest_roundWithAccuracy (s := s / t)
        (brackets_div (p := m <<< (e - f - (divCore .binary64 m e n f).2.1).toNat) hn)
        (divCore_bits (e := e) (f := f) hm hn)
      have hleast : (divCore .binary64 m e n f).2.1 ≤ e - f := min_le_left _ _
      -- the dividend was shifted left before the division, and the exponent makes up for it
      have hvalue : unpackedValue (.finite s m e hm) / unpackedValue (.finite t n f hn) =
          signValue (s / t) * ((m <<< (e - f - (divCore .binary64 m e n f).2.1).toNat : Nat) / n *
            2 ^ (divCore .binary64 m e n f).2.1) := by
        generalize (divCore .binary64 m e n f).2.1 = g at hleast
        obtain ⟨k, rfl⟩ : ∃ k : Nat, e = f + g + k := ⟨(e - f - g).toNat, by omega⟩
        have hk : (f + g + k - f - g).toNat = k := by omega
        have hsign : signValue t * signValue t = 1 := by cases t <;> norm_num [signValue]
        have hsign' : signValue t ≠ 0 := by cases t <;> norm_num [signValue]
        have hpos : (n : ℚ) ≠ 0 := by exact_mod_cast hn.ne'
        rw [unpackedValue, unpackedValue, signValue_div, hk, Nat.shiftLeft_eq,
          zpow_add₀ (by norm_num), zpow_add₀ (by norm_num), zpow_natCast]
        push_cast
        field_simp
        linear_combination -signValue s * hsign
      rw [hvalue]
      exact hround

/-! ## Differences -/

/-- Decreasing an exponent keeps the value. -/
theorem decreaseExponent_spec (m : Nat) (e g : Int) :
    ((decreaseExponent m e g).1 : ℚ) * 2 ^ (decreaseExponent m e g).2 = m * 2 ^ e ∧
      (decreaseExponent m e g).2 = min e g := by
  obtain ⟨k, hk⟩ : ∃ k : Nat, (e - g).toNat = k := ⟨_, rfl⟩
  simp only [decreaseExponent, hk]
  refine ⟨?_, by omega⟩
  obtain ⟨g', rfl⟩ : ∃ g' : Int, e = g' + k := ⟨e - k, by omega⟩
  rw [Nat.shiftLeft_eq, add_sub_cancel_right, zpow_add₀ (by norm_num), zpow_natCast]
  push_cast
  ring

/-- A number whose exponent is decreased to what it is rounded to has enough bits. -/
theorem nearest_round (hm : 0 < m) :
    Nearest (signValue s * (m * 2 ^ e))
      (Float.ofModel (Float.Model.pack (UnpackedFloat.round .binary64 s m e))) := by
  obtain ⟨hvalue, hexponent⟩ :=
    decreaseExponent_spec m e (Format.binary64.targetExponent (totalExponent m e))
  have hbits : 2 ^ 52 ≤ (decreaseExponent m e
        (Format.binary64.targetExponent (totalExponent m e))).1 ∨
      (decreaseExponent m e (Format.binary64.targetExponent (totalExponent m e))).2 ≤ -1074 := by
    simp only [decreaseExponent, Format.targetExponent, totalExponent, Format.mantissaBits,
      Format.minExponent]
    generalize hk : (e - max ((m.log2 : Int) + 1 + e - ((1 + 52 : Nat) : Int))
      (3 - 2 ^ (11 - 1) - ((1 + 52 : Nat) : Int))).toNat = k
    -- the exponent is as low as it can be, or 53 bits are reached
    by_cases hleast : e - k ≤ -1074
    · exact .inr hleast
    · left
      have hshift : 52 ≤ m.log2 + k := by omega
      rw [Nat.shiftLeft_eq]
      calc 2 ^ 52 ≤ 2 ^ (m.log2 + k) := Nat.pow_le_pow_right (by decide) hshift
        _ = 2 ^ m.log2 * 2 ^ k := Nat.pow_add _ _ _
        _ ≤ m * 2 ^ k := Nat.mul_le_mul_right _ (Nat.log2_self_le hm.ne')
  rw [← hvalue]
  exact nearest_roundWithAccuracy .exact hbits

theorem nearest_normalize (k : Int) (e : Int) (t : Sign) :
    Nearest (k * 2 ^ e) (Float.ofModel (Float.Model.pack (normalize .binary64 k e t))) := by
  unfold UnpackedFloat.normalize
  -- the sign is taken off first
  rcases hcompare : compare k 0 with _ | _ | _
  · obtain ⟨m, hm⟩ : ∃ m : Nat, -k = m := ⟨(-k).toNat, by
      have := compare_lt_iff_lt.1 hcompare
      omega⟩
    obtain rfl : k = -m := by omega
    have hpos : 0 < m := by
      have := compare_lt_iff_lt.1 hcompare
      omega
    have hvalue : ((-m : Int) : ℚ) * 2 ^ e = signValue .negative * (m * 2 ^ e) := by
      rw [signValue]
      push_cast
      ring
    rw [hvalue, neg_neg, Int.toNat_natCast]
    exact nearest_round hpos
  · rw [compare_eq_iff_eq.1 hcompare, Int.cast_zero, zero_mul]
    exact nearest_zero _
  · obtain ⟨m, rfl⟩ : ∃ m : Nat, k = m := ⟨k.toNat, by
      have := compare_gt_iff_gt.1 hcompare
      omega⟩
    have hpos : 0 < m := by
      have := compare_gt_iff_gt.1 hcompare
      omega
    have hvalue : ((m : Int) : ℚ) * 2 ^ e = signValue .positive * (m * 2 ^ e) := by
      rw [signValue, one_mul, Int.cast_natCast]
    rw [hvalue, Int.toNat_natCast]
    exact nearest_round hpos

theorem signValue_neg (s : Sign) : signValue (-s) = -signValue s := by
  cases s
  · exact (neg_neg (1 : ℚ)).symm
  · rfl

theorem cast_apply (s : Sign) (k : Int) : ((s.apply k : Int) : ℚ) = signValue s * k := by
  cases s <;> simp [Sign.apply, signValue]

theorem nearest_sub (hx : x.isFinite = true) (hy : y.isFinite = true) :
    Nearest (floatValue x - floatValue y) (x - y) := by
  have hu := ordinary_unpack hx
  have hv := ordinary_unpack hy
  change Nearest (unpackedValue x.toModel.unpack - unpackedValue y.toModel.unpack)
    (Float.ofModel (Float.Model.pack (UnpackedFloat.sub .binary64 x.toModel.unpack
      y.toModel.unpack)))
  generalize x.toModel.unpack = u at hu
  generalize y.toModel.unpack = v at hv
  cases hu with
  | @zero s =>
    cases hv with
    | @zero t =>
      rw [unpackedValue, unpackedValue, sub_zero]
      cases s <;> cases t <;> exact nearest_zero _
    | @finite t n f hn hf' hmost' =>
      have hvalue : unpackedValue (.zero s) - unpackedValue (.finite t n f hn) =
          unpackedValue (.finite (-t) n f hn) := by
        rw [unpackedValue, unpackedValue, unpackedValue, signValue_neg]
        ring
      rw [hvalue]
      exact nearest_pack (.finite hf' hmost') rfl
  | @finite s m e hm hf hmost =>
    cases hv with
    | @zero t =>
      rw [unpackedValue.eq_2, sub_zero]
      exact nearest_pack (.finite hf hmost) rfl
    | @finite t n f hn hf' hmost' =>
      -- both are brought to the smaller of the exponents
      obtain ⟨hvalue, hexponent⟩ := decreaseExponent_spec m e (min e f)
      obtain ⟨hvalue', hexponent'⟩ := decreaseExponent_spec n f (min e f)
      rw [hexponent, min_eq_right (min_le_left _ _)] at hvalue
      rw [hexponent', min_eq_right (min_le_right _ _)] at hvalue'
      have hround := nearest_normalize (s.apply (decreaseExponent m e (min e f)).1 -
        t.apply (decreaseExponent n f (min e f)).1) (min e f) .positive
      have hexact : unpackedValue (.finite s m e hm) - unpackedValue (.finite t n f hn) =
          (s.apply (decreaseExponent m e (min e f)).1 -
            t.apply (decreaseExponent n f (min e f)).1 : Int) * 2 ^ min e f := by
        rw [unpackedValue, unpackedValue, ← hvalue, ← hvalue', Int.cast_sub, cast_apply, cast_apply,
          Int.cast_natCast, Int.cast_natCast]
        ring
      rw [hexact]
      exact hround

/-! ## Negation -/

theorem isNaN_neg (x : Float) : (-x).isNaN = x.isNaN ∧ floatValue (-x) = -floatValue x := by
  have hcanonical : x.toModel.unpack.isNaN = false → Canonical x.toModel.unpack := canonical_unpack
  change (Float.Model.pack x.toModel.unpack.neg).unpack.isNaN = x.toModel.unpack.isNaN ∧
    unpackedValue (Float.Model.pack x.toModel.unpack.neg).unpack = -unpackedValue x.toModel.unpack
  generalize x.toModel.unpack = u at hcanonical
  cases u with
  | notANumber => exact ⟨by decide, neg_zero.symm⟩
  | infinity s =>
    rw [UnpackedFloat.neg, unpack_pack_of_canonical .infinity, unpackedValue, unpackedValue,
      signValue_neg, neg_mul]
    exact ⟨rfl, rfl⟩
  | zero s =>
    rw [UnpackedFloat.neg, unpack_pack_of_canonical .zero]
    exact ⟨rfl, neg_zero.symm⟩
  | finite s m e hm =>
    obtain ⟨⟩ | ⟨⟩ | ⟨hf, hmost⟩ := hcanonical rfl
    rw [UnpackedFloat.neg, unpack_pack_of_canonical (.finite hf hmost), unpackedValue,
      unpackedValue, signValue_neg, neg_mul]
    exact ⟨rfl, rfl⟩

theorem floatValue_neg (x : Float) : floatValue (-x) = -floatValue x := (isNaN_neg x).2

theorem isFinite_neg (hx : x.isFinite = true) : (-x).isFinite = true := by
  obtain ⟨hnumber, hvalue⟩ := isNaN_neg x
  rw [isFinite_iff] at hx ⊢
  rwa [hnumber, hvalue, abs_neg]

/-! ## Conversions -/

/-- A float that is nearest to an integer of at most 53 bits is that integer. -/
theorem Nearest.integer {k : Int} (h : Nearest k x) (hk : |k| ≤ 2 ^ 53) :
    x.isFinite = true ∧ floatValue x = k := by
  have hvalue := h.eq (representable_intCast hk)
  refine ⟨isFinite_iff.2 ⟨h.number, ?_⟩, hvalue⟩
  have hk : |(k : ℚ)| ≤ 2 ^ 53 := by exact_mod_cast hk
  rw [hvalue]
  exact hk.trans_lt (two_pow_lt_topValue (by decide))

theorem nearest_toFloat (w : UInt64) : Nearest w.toNat w.toFloat := by
  have hround := nearest_normalize w.toNat 0 .positive
  rw [zpow_zero, mul_one, Int.cast_natCast] at hround
  exact hround

theorem floatValue_one : floatValue 1.0 = 1 := by
  change (1 : ℚ) * ((2 ^ 52 : Nat) * 2 ^ (-52 : Int)) = 1
  norm_num

/-- A number below 2 ^ 53 becomes the float of its value: the conversion multiplies the word by 1.0,
which changes nothing. -/
theorem floatValue_ofNat (hn : n < 2 ^ 53) :
    (Float.ofNat n).isFinite = true ∧ floatValue (Float.ofNat n) = n := by
  -- a number of at most 53 bits is converted as a word
  have hfast : Float.ofNat n = n.toUInt64.toFloat * 1.0 := by
    rw [Float.ofNat]
    change Float.ofScientific n false 0 = _
    rw [Float.ofScientific, dif_pos ⟨hn, by decide⟩]
    rfl
  have hword : n.toUInt64.toNat = n := by
    rw [Nat.toUInt64, UInt64.toNat_ofNat']
    omega
  have hconvert : Nearest ((n : Int) : ℚ) n.toUInt64.toFloat := by
    have hnearest := nearest_toFloat n.toUInt64
    rwa [hword] at hnearest
  have hn : |(n : Int)| ≤ 2 ^ 53 := by
    rw [abs_of_nonneg (Int.natCast_nonneg n)]
    exact_mod_cast hn.le
  obtain ⟨hfinite, hvalue⟩ := hconvert.integer hn
  have hproduct := nearest_mul hfinite (show (1.0 : Float).isFinite = true by decide)
  rw [hvalue, floatValue_one, mul_one] at hproduct
  rw [hfast]
  obtain ⟨hfinite', hvalue'⟩ := hproduct.integer hn
  exact ⟨hfinite', by rw [hvalue', Int.cast_natCast]⟩

theorem floatValue_ofInt {k : Int} (hk : |k| < 2 ^ 53) :
    (Float.ofInt k).isFinite = true ∧ floatValue (Float.ofInt k) = k := by
  cases k with
  | ofNat n =>
    have hn : n < 2 ^ 53 := by
      rw [Int.ofNat_eq_natCast, abs_of_nonneg (Int.natCast_nonneg n)] at hk
      exact_mod_cast hk
    exact floatValue_ofNat hn
  | negSucc n =>
    have hn : n + 1 < 2 ^ 53 := by
      rw [Int.negSucc_eq, abs_neg, abs_of_nonneg (by omega)] at hk
      exact_mod_cast hk
    obtain ⟨hfinite, hvalue⟩ := floatValue_ofNat hn
    refine ⟨isFinite_neg hfinite, ?_⟩
    change floatValue (-Float.ofNat (n + 1)) = _
    rw [floatValue_neg, hvalue, Int.cast_negSucc]

theorem toNat_ofNatClamp (n : Nat) : (UInt64.ofNatClamp n).toNat = min n (2 ^ 64 - 1) := by
  rw [UInt64.ofNatClamp]
  split
  next h =>
    rw [UInt64.toNat_ofNatLT]
    simp only [UInt64.size] at h
    omega
  next h =>
    simp only [UInt64.size] at h
    rw [min_eq_right (by omega)]
    rfl

/-- Truncation answers the greatest word that is at most the float. -/
theorem le_toUInt64_iff {k : Nat} (hpos : 0 < k) (hk : k < 2 ^ 64) :
    k ≤ x.toUInt64.toNat ↔ (k : ℚ) ≤ floatValue x := by
  have hpos : (0 : ℚ) < k := by exact_mod_cast hpos
  have hmost : (k : ℚ) ≤ topValue := by
    have : (k : ℚ) < 2 ^ 64 := by exact_mod_cast hk
    exact (this.trans (two_pow_lt_topValue (by decide))).le
  change k ≤ (UnpackedFloat.toUInt64 x.toModel.unpack).toNat ↔
    (k : ℚ) ≤ unpackedValue x.toModel.unpack
  generalize x.toModel.unpack = u
  rw [UnpackedFloat.toUInt64, toNat_ofNatClamp, le_min_iff, and_iff_left (by omega)]
  have hzero : ¬k ≤ 0 := by
    have : 0 < k := by exact_mod_cast hpos
    omega
  cases u with
  | notANumber => exact iff_of_false hzero (not_le.2 hpos)
  | zero s => exact iff_of_false hzero (not_le.2 hpos)
  | infinity s =>
    cases s with
    | positive =>
      rw [unpackedValue, signValue, one_mul]
      refine iff_of_true ?_ hmost
      show k ≤ ((2 ^ 64 - 1 : Int)).toNat
      omega
    | negative =>
      rw [unpackedValue, signValue]
      exact iff_of_false hzero (not_le.2 (by linarith))
  | finite s m e hm =>
    have hpow := two_zpow_pos e
    rw [toInt, roundToInt_eq, unpackedValue]
    cases s with
    | negative =>
      -- a negative float becomes zero
      have hneg : ((Sign.negative.apply ((m <<< e.toNat / 2 ^ (-e).toNat : Nat) : Int)).toNat) =
          0 := Int.toNat_of_nonpos (neg_nonpos.2 (Int.natCast_nonneg _))
      rw [hneg, signValue]
      have : (0 : ℚ) ≤ m * 2 ^ e := by positivity
      exact iff_of_false hzero (not_le.2 (by linarith))
    | positive =>
      rw [Sign.apply, Int.toNat_natCast, Nat.le_div_iff_mul_le (Nat.two_pow_pos _),
        Nat.shiftLeft_eq, signValue, one_mul, ← Nat.cast_le (α := ℚ)]
      push_cast
      -- truncation is a whole division, so a whole number is below it if it is below the quotient
      have hsplit : (e.toNat : Int) - ((-e).toNat : Int) = e := by omega
      have hexponent : (2 : ℚ) ^ e = 2 ^ e.toNat / 2 ^ (-e).toNat := by
        rw [← zpow_natCast, ← zpow_natCast, ← zpow_sub₀ (by norm_num), hsplit]
      rw [hexponent, mul_div_assoc', le_div_iff₀ (by positivity)]

/-! ## Infinity -/

/-- A number that is not finite. -/
theorem exists_infinity (hnumber : x.isNaN = false) (h : x.isFinite = false) :
    ∃ s, x.toModel.unpack = .infinity s := by
  change x.toModel.unpack.isNaN = false at hnumber
  change x.toModel.unpack.isFinite = false at h
  generalize x.toModel.unpack = u at *
  cases u with
  | infinity s => exact ⟨s, rfl⟩
  | notANumber => cases hnumber
  | zero s => cases h
  | finite s m e hm => cases h

section

variable (hx : x.toModel.unpack = .infinity s)

include hx

theorem floatValue_of_infinity : x.isNaN = false ∧ floatValue x = signValue s * topValue := by
  change x.toModel.unpack.isNaN = false ∧ unpackedValue x.toModel.unpack = signValue s * topValue
  rw [hx]
  exact ⟨rfl, rfl⟩

theorem unpack_sub_of_infinity (hy : y.isFinite = true) :
    (x - y).toModel.unpack = .infinity s := by
  change (Float.Model.pack (UnpackedFloat.sub .binary64 x.toModel.unpack y.toModel.unpack)).unpack =
    .infinity s
  rw [hx]
  have hv := ordinary_unpack hy
  generalize y.toModel.unpack = v at hv
  cases hv <;> exact unpack_pack_of_canonical .infinity

variable (hy : y.isFinite = true) (hpos : 0 < floatValue y)

include hy hpos

/-- A positive factor leaves it as it is, and so does a positive divisor. -/
theorem unpack_scale_of_infinity : (x * y).toModel.unpack = .infinity s ∧
    (x / y).toModel.unpack = .infinity s := by
  change (Float.Model.pack (UnpackedFloat.mul .binary64 x.toModel.unpack y.toModel.unpack)).unpack =
      .infinity s ∧
    (Float.Model.pack (UnpackedFloat.div .binary64 x.toModel.unpack y.toModel.unpack)).unpack =
      .infinity s
  change 0 < unpackedValue y.toModel.unpack at hpos
  rw [hx]
  have hv := ordinary_unpack hy
  generalize y.toModel.unpack = v at hv hpos
  cases hv with
  | zero => exact absurd hpos (lt_irrefl 0)
  | @finite t m e hm hf hmost =>
    cases t with
    | positive =>
      cases s <;> exact ⟨unpack_pack_of_canonical .infinity, unpack_pack_of_canonical .infinity⟩
    | negative =>
      have := (finiteValue_bounds hm hf hmost).1
      rw [unpackedValue, signValue] at hpos
      linarith

end

/-- A number that is not finite is negative infinity, unless it is above all floats. -/
theorem unpack_eq_negative (hnumber : x.isNaN = false) (hvalue : floatValue x < topValue)
    (h : x.isFinite = false) : x.toModel.unpack = .infinity .negative := by
  obtain ⟨s, hs⟩ := exists_infinity hnumber h
  rw [(floatValue_of_infinity hs).2] at hvalue
  cases s with
  | negative => exact hs
  | positive => simp [signValue] at hvalue

end CardSat
