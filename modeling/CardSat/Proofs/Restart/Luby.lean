import CardSat.Proofs.Checked
import CardSat.Restart
import Mathlib.Algebra.Group.Nat.Defs

set_option autoImplicit false

/-! # The recursion of the Luby sequence

The complete subsequence of order `n + 1` is the one of order `n`, written twice, and the element `n
+ 1` behind it. So an element that does not end a complete subsequence repeats the one at its
distance from the greatest complete subsequence before it (`lubyOrder`). `descend` goes the other
way, from a complete subsequence that is too long down to the one that ends at the index, and comes
to the same order (`descend_eq_lubyOrder`). Every index has an order as long as its successor is a
32-bit word, and no further index has (`luby_recursion`).

The recursion is on the index, and `descend` on the length of a subsequence, so the induction that
compares them is on the order of the subsequence, with the index of the element inside it as the
quantity that both agree on.
-/

namespace CardSat

/-! ## The recursion -/

/-- The order of the complete subsequence that ends at index `x`. -/
def lubyOrder (x : Nat) : Nat :=
  if x + 2 = 2 ^ (x + 2).log2 then (x + 2).log2 - 1
  else lubyOrder (x - (2 ^ (x + 2).log2 - 1))
termination_by x
decreasing_by
  next hne =>
    -- the greatest power below `x + 2` is not one
    have hle : 2 ^ (x + 2).log2 ≤ x + 2 := Nat.log2_self_le (by omega)
    have hpow : 2 ^ 1 ≤ 2 ^ (x + 2).log2 :=
      Nat.pow_le_pow_right (by decide) ((Nat.le_log2 (by omega)).2 (by omega))
    omega

theorem lubyOrder_of_eq {x k : Nat} (h : x + 2 = 2 ^ k) : lubyOrder x = k - 1 := by
  have hlog : (x + 2).log2 = k := by rw [h, Nat.log2_two_pow]
  rw [lubyOrder, hlog, if_pos h]

theorem lubyOrder_of_lt {x k : Nat} (hlow : 2 ^ k < x + 2) (hhigh : x + 2 < 2 ^ (k + 1)) :
    lubyOrder x = lubyOrder (x - (2 ^ k - 1)) := by
  have hlog : (x + 2).log2 = k :=
    (Nat.log2_eq_iff (by omega)).2 ⟨Nat.le_of_lt hlow, hhigh⟩
  rw [lubyOrder, hlog, if_neg (Nat.ne_of_gt hlow)]

/-! ## Complete subsequences -/

/-- The length of a complete subsequence of some order. -/
def completeLength (order : Nat) : Nat := 2 ^ (order + 1) - 1

theorem completeLength_add_one (order : Nat) : completeLength order + 1 = 2 ^ (order + 1) :=
  Nat.sub_add_cancel (Nat.two_pow_pos _)

theorem completeLength_succ (order : Nat) :
    completeLength (order + 1) = 2 * completeLength order + 1 := by
  have h := completeLength_add_one order
  have h' := completeLength_add_one (order + 1)
  rw [Nat.pow_succ 2 (order + 1)] at h'
  omega

theorem completeLength_pos (order : Nat) : 0 < completeLength order := by
  have h := completeLength_add_one order
  have hpow : 2 ^ 1 ≤ 2 ^ (order + 1) := Nat.pow_le_pow_right (by decide) (by omega)
  omega

/-- A complete subsequence ends with its order. -/
theorem lubyOrder_of_end {x order : Nat} (h : x + 1 = completeLength order) :
    lubyOrder x = order := by
  have hpow := completeLength_add_one order
  rw [lubyOrder_of_eq (k := order + 1) (by omega), Nat.add_sub_cancel]

/-- Behind a complete subsequence, the same elements follow again. -/
theorem lubyOrder_of_behind {x order : Nat} (hlow : completeLength order ≤ x)
    (hhigh : x < 2 * completeLength order) :
    lubyOrder x = lubyOrder (x - completeLength order) := by
  have hpow := completeLength_add_one order
  have hpow' : 2 ^ (order + 1 + 1) = 2 ^ (order + 1) * 2 := Nat.pow_succ 2 (order + 1)
  exact lubyOrder_of_lt (k := order + 1) (by omega) (by omega)

/-! ## The two searches -/

/-- A complete subsequence that reaches an index is found, if the index can be counted. -/
theorem exists_enclosing {x : Nat} (hx : x + 1 < restartRange) (order : Nat) :
    ∃ n, enclosingSubsequence x (completeLength order) order = .ok (completeLength n, (n : Int)) ∧
      x < completeLength n := by
  by_cases hlt : completeLength order < x + 1
  · -- the lengths below `2 ^ 32 - 1` are at most `2 ^ 31 - 1`
    have hnext : 2 * completeLength order + 1 < restartRange := by
      have hpow := completeLength_add_one order
      have horder : order + 1 < 32 := by
        apply (Nat.pow_lt_pow_iff_right (a := 2) (by decide)).1
        simp only [restartRange, UInt32.size] at hx
        omega
      have hle : 2 ^ (order + 1) ≤ 2 ^ 31 := Nat.pow_le_pow_right (by decide) (by omega)
      simp only [restartRange, UInt32.size]
      omega
    obtain ⟨n, hn, hreach⟩ := exists_enclosing hx (order + 1)
    refine ⟨n, ?_, hreach⟩
    rw [enclosingSubsequence, if_pos hlt, if_pos hnext, ← completeLength_succ]
    exact hn
  · refine ⟨order, ?_, by omega⟩
    rw [enclosingSubsequence, if_neg hlt]
termination_by x + 1 - completeLength order
decreasing_by
  rw [completeLength_succ]
  omega

/-- A subsequence that is found reaches the index, and its length is a 32-bit word. -/
theorem enclosing_eq_ok {x size n : Nat} {order m : Int} (hsize : size < restartRange)
    (h : enclosingSubsequence x size order = .ok (n, m)) : x < n ∧ n < restartRange := by
  fun_induction enclosingSubsequence x size order with
  | case1 size order _ hnext ih => exact ih hnext h
  | case2 => cases h
  | case3 size order hge =>
    obtain ⟨rfl, -⟩ := Prod.mk.inj (Except.ok.inj h)
    exact ⟨by omega, hsize⟩

/-- Inside a complete subsequence, going down comes to the order of the one that ends at the
index. -/
theorem descend_eq_lubyOrder {order x : Nat} (hx : x < completeLength order) :
    descend (completeLength order) x order = .ok (lubyOrder x : Int) := by
  induction order generalizing x with
  | zero =>
    obtain rfl : x = 0 := by
      simp only [completeLength] at hx
      omega
    rw [show lubyOrder 0 = 0 from lubyOrder_of_end rfl, descend]
    rfl
  | succ order ih =>
    have hpos := completeLength_pos order
    -- without its last element the subsequence is two copies of the one below
    have hhalf : (completeLength (order + 1) - 1) / 2 = completeLength order := by
      rw [completeLength_succ]
      omega
    rw [descend]
    by_cases hend : completeLength (order + 1) - 1 = x
    · have hlast : x + 1 = completeLength (order + 1) := by
        have := completeLength_pos (order + 1)
        omega
      rw [if_pos hend, lubyOrder_of_end hlast]
    · -- the index lies in the first or in the second copy of the subsequence below
      have hrest : lubyOrder (x % completeLength order) = lubyOrder x := by
        rcases Nat.lt_or_ge x (completeLength order) with hlt | hge
        · rw [Nat.mod_eq_of_lt hlt]
        · have hhigh : x < 2 * completeLength order := by
            rw [completeLength_succ] at hx hend
            omega
          rw [Nat.mod_eq_sub_mod hge, Nat.mod_eq_of_lt (by omega), lubyOrder_of_behind hge hhigh]
      rw [if_neg hend, hhalf, if_neg (by omega), ← hrest, ← ih (Nat.mod_lt x hpos)]
      congr 1
      omega

theorem lubyExponent_eq_ok {x : Nat} (hx : x + 1 < restartRange) :
    lubyExponent x = .ok (lubyOrder x : Int) := by
  obtain ⟨order, hfound, hreach⟩ := exists_enclosing hx 0
  rw [lubyExponent, show enclosingSubsequence x 1 0 = _ from hfound]
  exact descend_eq_lubyOrder hreach

/-- An index that fills a 32-bit word, or more, is refused. -/
theorem not_lubyExponent_eq_ok {x : Nat} {m : Int} (hx : restartRange ≤ x + 1) :
    lubyExponent x ≠ .ok m := by
  intro h
  rw [lubyExponent, bind_eq_ok] at h
  obtain ⟨⟨n, order⟩, hfound, -⟩ := h
  have hreach := enclosing_eq_ok (by decide) hfound
  omega

/-- The element `x` of the Luby sequence is the power whose exponent follows the recursion of the
sequence, for every index whose successor is a 32-bit word and for no other. -/
theorem luby_recursion :
    (∀ x k : Nat, x + 2 = 2 ^ k → lubyOrder x = k - 1) ∧
    (∀ x k : Nat, 2 ^ k < x + 2 → x + 2 < 2 ^ (k + 1) →
      lubyOrder x = lubyOrder (x - (2 ^ k - 1))) ∧
    (∀ x : Nat, x < 2 ^ 32 - 1 → lubyExponent x = .ok (lubyOrder x : Int) ∧
      ∀ y : Float, luby y x = .ok (power y (lubyOrder x))) ∧
    ∀ x : Nat, 2 ^ 32 - 1 ≤ x → ∀ m, lubyExponent x ≠ .ok m := by
  refine ⟨fun x k => lubyOrder_of_eq, fun x k => lubyOrder_of_lt, fun x hx => ?_, fun x hx m => ?_⟩
  · have hexponent := lubyExponent_eq_ok (x := x) (by simp only [restartRange, UInt32.size]; omega)
    refine ⟨hexponent, fun y => ?_⟩
    rw [luby, hexponent]
    rfl
  · exact not_lubyExponent_eq_ok (by simp only [restartRange, UInt32.size]; omega)

/-- The fourteenth element is the last one of a subsequence of order two, which is seen in two
steps: it repeats the seventh element. -/
theorem luby_recursion_at_thirteen : 2 ^ 3 < 13 + 2 ∧ 13 + 2 < 2 ^ 4 ∧ 6 + 2 = 2 ^ 3 ∧
    lubyOrder 13 = 2 ∧ lubyExponent 13 = .ok 2 ∧ luby 1.5 13 = .ok (power 1.5 2) ∧
    lubyExponent (2 ^ 32 - 1) ≠ .ok 2 := by
  obtain ⟨hend, hbehind, hluby, hbeyond⟩ := luby_recursion
  have horder : lubyOrder 13 = 2 := by
    rw [hbehind 13 3 (by decide) (by decide), hend _ 3 (by decide)]
  obtain ⟨hexponent, hpower⟩ := hluby 13 (by decide)
  rw [horder] at hexponent hpower
  exact ⟨by decide, by decide, by decide, horder, hexponent, hpower 1.5,
    hbeyond _ (Nat.le_refl _) 2⟩

/-- The fourth element starts over with exponent zero, although its position four is a power of
two: the positions at which an element has the exponent `k - 1` for the first time are those one
below the powers. -/
theorem luby_restarts_at_power : ¬ ∃ e : Nat → Int,
    (∀ x k : Nat, x + 1 = 2 ^ k → e x = k - 1) ∧
    (∀ x k : Nat, 2 ^ k < x + 1 → x + 1 < 2 ^ (k + 1) → e x = e (x - (2 ^ k - 1))) ∧
    ∀ x : Nat, x < 2 ^ 32 - 1 → lubyExponent x = .ok (e x) := by
  rintro ⟨e, hpower, -, he⟩
  have hthree : lubyExponent 3 = .ok 0 := by
    rw [lubyExponent_eq_ok (by decide), lubyOrder_of_lt (k := 2) (by decide) (by decide),
      lubyOrder_of_eq (k := 1) (by decide)]
    rfl
  have hclaimed := (he 3 (by decide)).symm.trans hthree
  rw [hpower 3 2 (by decide)] at hclaimed
  cases hclaimed

end CardSat
