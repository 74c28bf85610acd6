import CardSat.Proofs.Float.Rounding
import CardSat.Proofs.Restart.Luby

set_option autoImplicit false

/-! # Lengths of restart intervals

A power of a float that exceeds one is at least one, and the exponent of the Luby sequence is found
for every index that a signed word of 32 bits can hold. So every interval has a length
(`exists_exponent`, `interval_of_exponent`): the first length times a power that is at least one.

The length is a float that is cut to a machine word. That it is at least the first length is
therefore a statement about rounding (`Proofs.Float.Rounding`), and the exponent is one about the
search for it (`Proofs.Restart.Luby`).
-/

namespace CardSat

/-! ## Powers -/

theorem one_le_powerFrom {r a : Float} {n : Nat} (hr : 1.0 ≤ r) (ha : 1.0 ≤ a) :
    1.0 ≤ powerFrom r a n := by
  fun_induction powerFrom r a n with
  | case1 r a n r' _ =>
    show 1.0 ≤ (if n % 2 = 1 then r * a else r)
    split
    · exact one_le_mul_float hr ha
    · exact hr
  | case2 r a n r' _ ih =>
    refine ih ?_ (one_le_mul_float ha ha)
    show 1.0 ≤ (if n % 2 = 1 then r * a else r)
    split
    · exact one_le_mul_float hr ha
    · exact hr

theorem one_le_power {a : Float} (ha : 1.0 ≤ a) (n : Nat) : 1.0 ≤ power a n := by
  rw [power, if_neg (by omega)]
  exact one_le_powerFrom (by decide) ha

/-! ## Lengths -/

variable {s : RestartStrategy} {restarts : Nat}

/-- The exponent of the power by which the first length is multiplied. -/
def RestartStrategy.Exponent (s : RestartStrategy) (restarts k : Nat) : Prop :=
  if s.luby then lubyExponent restarts = .ok (k : Int) else k = restarts

theorem interval_of_exponent {k : Nat} (hk : s.Exponent restarts k) (hr : restarts < 2 ^ 31) :
    s.interval restarts = .ok (power s.inc k * s.first).toUInt64 := by
  unfold RestartStrategy.Exponent at hk
  rw [RestartStrategy.interval]
  split at hk
  next hluby =>
    rw [if_pos hluby, luby, hk]
    rfl
  next hluby =>
    have hword : Int.bmod restarts restartRange = restarts :=
      Int.bmod_eq_of_le (by simp only [restartRange, UInt32.size]; omega)
        (by simp only [restartRange, UInt32.size]; omega)
    rw [if_neg hluby, hword, hk]
    rfl

theorem exists_exponent (s : RestartStrategy) (hr : restarts < 2 ^ 31) :
    ∃ k, s.Exponent restarts k := by
  unfold RestartStrategy.Exponent
  split
  · have hword : restarts + 1 < restartRange := by
      simp only [restartRange, UInt32.size]
      omega
    exact ⟨lubyOrder restarts, lubyExponent_eq_ok hword⟩
  · exact ⟨restarts, rfl⟩

end CardSat
