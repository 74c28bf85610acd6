import CardSat.Proofs.Trail.Decisions
import Mathlib.Algebra.Group.Nat.Defs

set_option autoImplicit false

/-! # Every conflict enlarges the trail

A search goes back from a conflict and makes a literal true where a decision stood before
(`Trail.Backjump`). The positions of a trail are read as digits, `0` for a position without a
literal, `1` for the beginning of a level and `2` for every other literal, and the first `n` of them
as a number with the most significant digit first (`Trail.rank`). Propagation never lowers this
number, opening a level without a literal leaves it, and every decision (`rank_lt_of_decide`) and
every backjump (`Backjump.rank_lt`) raises it. Below `3 ^ n` it stays in any case (`rank_lt`).

## Why this is not circular

The rank is a function of the trail alone. It does not look at learnt clauses, which a search may
give up at any time, nor at what it has tried before. So the argument needs no memory: a backjump
keeps the levels below the conflict, and where the next level began, with a decision and the digit
`1`, there is now a forced literal, with the digit `2`. The digits behind are smaller in weight,
whatever they have become.

A number of variables bounds the number of digits that count, since a trail has at most one literal
for each variable.
-/

namespace CardSat

namespace Trail

variable {t t' : Trail} {k n : Nat} {l : Lit}

/-! ## Going back from a conflict -/

/-- A trail goes back below its current level, to the ground level or to a level that has a literal
of its own, and `l`, which is false on the current level, becomes true there. -/
structure Backjump (t : Trail) (k : Nat) (l : Lit) (t' : Trail) : Prop where
  below : k < t.level
  reverses : l.neg ∈ t ∧ t.levelOf l.var = t.level
  held : 0 < k → ∃ m ∈ t, t.levelOf m.var = k
  assigned : ∃ r, (t.rewind k).2.Assigned l r t' ∧ (0 < k → r.isSome = true)

namespace Backjump

/-- A backjump ends at the level it goes back to. -/
theorem level_eq (h : t.Backjump k l t') : t'.level = k := by
  obtain ⟨_, ha, -⟩ := h.assigned
  rw [ha.level_eq, level_rewind, Nat.min_eq_left (Nat.le_of_lt h.below)]

/-- The levels that are left begin with their decisions, and the new literal is not the first of its
level. -/
theorem led (h : t.Backjump k l t') (hv : t.Valid) (hled : t.Led) : t'.Led := by
  obtain ⟨r, ha, hr⟩ := h.assigned
  have hv' := ha.valid (valid_rewind hv k)
  rcases Nat.eq_zero_or_pos k with hk | hk
  · exact led_of_ground hv' (h.level_eq.trans hk)
  · obtain ⟨a, rfl⟩ := Option.isSome_iff_exists.1 (hr hk)
    refine (hled.rewind hv k).extends (ha.extends (valid_rewind hv k)) hv' fun m hm => ?_
    rcases ha.mem_iff.1 hm with hm | rfl
    · exact .inl hm
    · exact .inr ⟨a, ha.reasonOf_self⟩

/-- The position of the new literal was taken, by the first literal of a level. -/
theorem levelEnd_lt (h : t.Backjump k l t') (hv : t.Valid) : t.levelEnd k < t.lits.size := by
  obtain ⟨i, hi⟩ := List.mem_iff_getElem?.1 h.reverses.1
  have hsize := (List.getElem?_eq_some_iff.1 hi).1
  rw [Array.length_toList] at hsize
  have hle : ¬ t.levelOf l.neg.var ≤ k := by
    rw [Lit.neg_var, h.reverses.2]
    exact Nat.not_le.2 h.below
  exact Nat.lt_of_le_of_lt (Nat.not_lt.1 (mt (hv.levelOf_le_iff hi).2 hle)) hsize

/-- No level that is kept begins at the position of the new literal, since the last of them has a
literal. -/
theorem start_lt (h : t.Backjump k l t') (hv : t.Valid) :
    ∀ s ∈ t.starts.toList.take k, s < t.levelEnd k := by
  intro s hs
  obtain ⟨i, hi, rfl⟩ := List.mem_take_iff_getElem.1 hs
  obtain ⟨m, hm, hmk⟩ := h.held (Nat.lt_of_le_of_lt (Nat.zero_le i) (by omega))
  obtain ⟨j, hj⟩ := List.mem_iff_getElem?.1 hm
  have hend : j < t.levelEnd k := (hv.levelOf_le_iff hj).1 (Nat.le_of_eq hmk)
  have hcount := hv.level_eq j m hj
  have hget : t.starts.toList[i]? = some t.starts.toList[i] := List.getElem?_eq_getElem (by omega)
  have := countP_le_iff hv.sorted hget (i := j)
  omega

end Backjump

/-! ## The rank of a trail

The order of ranks is the lexicographic order of digits. It is enough that the digits agree up to
some position and differ there in the right direction. -/

/-- What stands at a position. -/
def digit (t : Trail) (i : Nat) : Nat :=
  if t.lits.size ≤ i then 0 else if i ∈ t.starts.toList then 1 else 2

/-- The digits of the first `n` positions as a number. -/
def rank (t : Trail) : (n : Nat) → Nat
  | 0 => 0
  | n + 1 => 3 * t.rank n + t.digit n

/-- There are three digits. -/
theorem digit_le (t : Trail) (i : Nat) : t.digit i ≤ 2 := by
  rw [digit]
  split
  · omega
  · split <;> omega

/-- Where there is no literal, the digit is zero. -/
theorem digit_of_le {i : Nat} (h : t.lits.size ≤ i) : t.digit i = 0 := if_pos h

/-- Where there is a literal, the digit is not zero. -/
theorem digit_pos {i : Nat} (h : i < t.lits.size) : 0 < t.digit i := by
  rw [digit, if_neg (Nat.not_le.2 h)]
  split <;> omega

/-- Taken positions at which the same levels begin look alike. -/
theorem digit_congr {i : Nat} (h : i < t.lits.size) (h' : i < t'.lits.size)
    (hstarts : i ∈ t'.starts.toList ↔ i ∈ t.starts.toList) : t'.digit i = t.digit i := by
  simp only [digit, Nat.not_le.2 h, Nat.not_le.2 h', if_false, hstarts]

/-- A number with `n` digits. -/
theorem rank_lt (t : Trail) (n : Nat) : t.rank n < 3 ^ n := by
  induction n with
  | zero => exact Nat.one_pos
  | succ n ih =>
      have := t.digit_le n
      rw [rank, Nat.pow_succ]
      omega

/-- No digit is smaller, so the number is not. -/
theorem rank_le (h : ∀ i < n, t.digit i ≤ t'.digit i) : t.rank n ≤ t'.rank n := by
  induction n with
  | zero => exact Nat.le_refl _
  | succ n ih =>
      have := ih fun i hi => h i (Nat.lt_succ_of_lt hi)
      have := h n (Nat.lt_succ_self n)
      rw [rank, rank]
      omega

/-- A digit that is raised outweighs those that follow. -/
theorem rank_lt_of_digit {i : Nat} (hi : i < n) (hbefore : ∀ j < i, t.digit j ≤ t'.digit j)
    (hdigit : t.digit i < t'.digit i) : t.rank n < t'.rank n := by
  induction n with
  | zero => exact absurd hi (Nat.not_lt_zero i)
  | succ n ih =>
      rw [rank, rank]
      rcases Nat.lt_succ_iff_lt_or_eq.1 hi with hlt | rfl
      · have := ih hlt
        have := t.digit_le n
        omega
      · have := rank_le hbefore
        omega

/-! ## Steps

What the operations of a search do to the rank. Clearing reasons does nothing, as neither literals
nor level starts change. -/

/-- New literals on the current level do not lower the rank. -/
theorem Extends.rank_le (h : t.Extends t') (n : Nat) : t.rank n ≤ t'.rank n := by
  refine Trail.rank_le fun i _ => ?_
  rcases Nat.lt_or_ge i t.lits.size with hi | hi
  · have hsize : i < t'.lits.size :=
      Nat.lt_of_lt_of_le hi (by simpa using h.lits.length_le)
    exact Nat.le_of_eq (digit_congr hi hsize (by rw [h.starts])).symm
  · rw [digit_of_le hi]
    exact Nat.zero_le _

/-- Forgetting reasons leaves the rank. -/
theorem Cleared.rank_eq (h : t.Cleared t') (n : Nat) : t'.rank n = t.rank n := by
  have hdigit : ∀ i, t'.digit i = t.digit i := fun i => by rw [digit, digit, h.lits, h.starts]
  exact Nat.le_antisymm (rank_le fun i _ => Nat.le_of_eq (hdigit i))
    (rank_le fun i _ => Nat.le_of_eq (hdigit i).symm)

/-- A level without a literal begins at a position that is not taken. -/
theorem digit_openLevel (t : Trail) (i : Nat) : t.openLevel.digit i = t.digit i := by
  rcases Nat.lt_or_ge i t.lits.size with hi | hi
  · refine digit_congr hi (by exact hi) ?_
    simp [openLevel, Nat.ne_of_lt hi]
  · rw [digit_of_le hi, digit_of_le (by exact hi)]

/-- A level without a literal begins behind the last one, where the digit is zero anyway. -/
theorem rank_openLevel (t : Trail) (n : Nat) : t.openLevel.rank n = t.rank n :=
  Nat.le_antisymm (rank_le fun i _ => Nat.le_of_eq (t.digit_openLevel i))
    (rank_le fun i _ => Nat.le_of_eq (t.digit_openLevel i).symm)

/-- A decision takes a new position. -/
theorem rank_lt_of_decide (hn : t.lits.size < n) (ha : t.openLevel.Assigned l none t') :
    t.rank n < t'.rank n := by
  have hsize : t'.lits.size = t.lits.size + 1 := ha.size_eq
  have hstarts : t'.starts = t.openLevel.starts := ha.starts
  refine rank_lt_of_digit hn (fun j hj => Nat.le_of_eq ?_) ?_
  · rw [← digit_openLevel]
    exact (digit_congr (by exact hj) (by omega) (by rw [hstarts])).symm
  · rw [digit_of_le (Nat.le_refl _)]
    exact digit_pos (by omega)

/-- A literal takes the place of a decision and begins no level. -/
theorem Backjump.rank_lt (h : t.Backjump k l t') (hv : t.Valid) (hn : t.lits.size ≤ n) :
    t.rank n < t'.rank n := by
  have hlt := h.levelEnd_lt hv
  have hstart := h.start_lt hv
  obtain ⟨r, ha, -⟩ := h.assigned
  have hsize : t'.lits.size = t.levelEnd k + 1 := by rw [ha.size_eq, size_rewind hv]
  have hstarts : t'.starts.toList = t.starts.toList.take k := by
    rw [ha.starts, toList_starts_rewind]
  have hget := levelEnd_eq_of_lt h.below
  refine rank_lt_of_digit (Nat.lt_of_lt_of_le hlt hn) (fun j hj => Nat.le_of_eq ?_) ?_
  · refine (digit_congr (by omega) (by omega) ?_).symm
    rw [hstarts]
    refine ⟨List.mem_of_mem_take, fun hmem => ?_⟩
    obtain ⟨i, hi⟩ := List.mem_iff_getElem?.1 hmem
    have hik : i < k := by
      by_contra hki
      -- the levels above `k` begin where that one ends, or later
      have := countP_le_iff hv.sorted hget (i := j)
      have := countP_le_iff hv.sorted hi (i := j)
      omega
    exact List.mem_of_getElem? (i := i) (by rw [List.getElem?_take, if_pos hik, hi])
  · have hone : t.digit (t.levelEnd k) = 1 := by
      rw [digit, if_neg (Nat.not_le.2 hlt), if_pos (List.mem_of_getElem? hget)]
    have htwo : t'.digit (t.levelEnd k) = 2 := by
      rw [digit, if_neg (by omega), if_neg]
      rw [hstarts]
      exact fun hmem => Nat.lt_irrefl _ (hstart _ hmem)
    omega

end Trail

end CardSat
