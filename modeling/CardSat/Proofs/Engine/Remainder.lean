import CardSat.Proofs.Sorting
import Mathlib.Algebra.Group.Nat.Defs

set_option autoImplicit false

/-! # What is left of an at-most constraint

When an at-most constraint is added, true literals and complementary pairs use up its bound, and
false and repeated ones are left out. `Taking` says how the number of true literals splits into
those that were left and the part of the bound that was used. A literal that is true already uses up
the bound each time it occurs, so that its repetitions (`Trail.surplus`) count as well. The bound is
a word of 64 bits, so large bounds wrap around; but then the constraint is trivial.

## How the proof goes

The literals are gone through in ascending order. `Taking t bound pre r` is the invariant after
those of `pre`, with one lemma for each thing that can happen to the next literal: it is true
(`spend`), its complement was the last one (`pair`), it is false or was the last one (`skip`), or it
is kept (`keep`). The order is what makes the last literal enough to look at: a literal and its
complement are neighbours, and so are repetitions. Where a pair is found, the literal that was kept
is taken out again, and one literal of the two is true in every world.

The invariant counts in natural numbers and says that the bound is what is left of the word. Whether
the subtraction has wrapped around is decided at the end (`Taking.countP_le_iff`), where the number
of literals is compared with the size of a word.
-/

namespace CardSat

/-! ## Counting one more literal -/

/-- A literal that is new is kept. -/
theorem eraseDups_concat {xs : List Lit} {l : Lit} (h : l ∉ xs) :
    (xs ++ [l]).eraseDups = xs.eraseDups ++ [l] := by
  have hrem : ([l] : List Lit).removeAll xs = [l] := by
    simp [List.removeAll, h]
  rw [List.eraseDups_append, hrem]
  rfl

/-- Leaving out repetitions leaves literals of the list. -/
theorem subperm_eraseDups (xs : List Lit) : xs.eraseDups.Subperm xs :=
  List.subperm_of_subset (nodup_eraseDups xs) fun _ hl => List.mem_eraseDups.1 hl

/-- No entry is left out that is selected and occurs once. -/
theorem countP_le_countP_eraseDups {xs : List Lit} {p : Lit → Bool} (h : (xs.filter p).Nodup) :
    xs.countP p ≤ xs.eraseDups.countP p := by
  rw [List.countP_eq_length_filter, List.countP_eq_length_filter]
  refine (List.subperm_of_subset h fun l hl => ?_).length_le
  rw [List.mem_filter] at hl ⊢
  exact ⟨List.mem_eraseDups.2 hl.1, hl.2⟩

namespace World

variable {w : World} {xs : List Lit} {l : Lit}

/-- A repetition does not change the count. -/
theorem count_concat_of_mem (h : l ∈ xs) : w.count (xs ++ [l]) = w.count xs :=
  count_congr fun m => by
    rw [List.mem_append, List.mem_singleton]
    exact ⟨fun hm => hm.elim id fun he => he ▸ h, Or.inl⟩

/-- A new literal counts if it is true. -/
theorem count_concat_of_not_mem (h : l ∉ xs) :
    w.count (xs ++ [l]) = w.count xs + if l.holds w = true then 1 else 0 := by
  rw [count, eraseDups_concat h, List.countP_append, List.countP_singleton, count]

/-- No more literals are true than there are. -/
theorem count_le_length (w : World) (xs : List Lit) : w.count xs ≤ xs.length :=
  Nat.le_trans List.countP_le_length (subperm_eraseDups xs).length_le

end World

/-! ## Repetitions -/

namespace Trail

variable {t : Trail} {xs ys : List Lit} {l : Lit}

/-- How often a list repeats literals that are true already. -/
def surplus (t : Trail) (xs : List Lit) : Nat :=
  xs.countP (fun l => t.truth l = .yes) - xs.eraseDups.countP (fun l => t.truth l = .yes)

/-- A repetition of a true literal adds to the surplus. -/
theorem surplus_concat_of_mem (h : l ∈ xs) :
    t.surplus (xs ++ [l]) = t.surplus xs + if t.truth l = .yes then 1 else 0 := by
  have hsame : (xs ++ [l]).eraseDups.Perm xs.eraseDups := perm_eraseDups fun m => by
    rw [List.mem_append, List.mem_singleton]
    exact ⟨fun hm => hm.elim id fun he => he ▸ h, Or.inl⟩
  have hle := (subperm_eraseDups xs).countP_le fun l => t.truth l = .yes
  rw [surplus, hsame.countP_eq, List.countP_append, List.countP_singleton, surplus]
  simp only [decide_eq_true_eq]
  omega

/-- A new literal does not. -/
theorem surplus_concat_of_not_mem (h : l ∉ xs) : t.surplus (xs ++ [l]) = t.surplus xs := by
  rw [surplus, eraseDups_concat h, List.countP_append, List.countP_append, surplus]
  omega

/-- The order does not matter. -/
theorem surplus_congr (h : xs.Perm ys) : t.surplus xs = t.surplus ys := by
  rw [surplus, h.countP_eq, (perm_eraseDups fun _ => h.mem_iff).countP_eq, surplus]

/-- Nothing is in excess if the literals that are true already occur once. -/
theorem surplus_eq_zero (h : (xs.filter fun l => t.truth l = .yes).Nodup) : t.surplus xs = 0 :=
  Nat.sub_eq_zero_of_le (countP_le_countP_eraseDups h)

end Trail

/-- The true literals of `pre` and its surplus are the true literals among `lits` and `k` others. -/
def Splits (t : Trail) (w : World) (pre lits : List Lit) (k : Nat) : Prop :=
  w.count pre + t.surplus pre = lits.countP (Lit.holds w) + k

/-- One more literal: what becomes of it when it is a repetition, and when it is new. -/
theorem Splits.concat {t : Trail} {w : World} {pre lits lits' : List Lit} {k k' : Nat} {l : Lit}
    (hs : Splits t w pre lits k)
    (hmem : l ∈ pre → lits'.countP (Lit.holds w) + k' =
      lits.countP (Lit.holds w) + k + if t.truth l = .yes then 1 else 0)
    (hnew : l ∉ pre → lits'.countP (Lit.holds w) + k' =
      lits.countP (Lit.holds w) + k + if l.holds w = true then 1 else 0) :
    Splits t w (pre ++ [l]) lits' k' := by
  rw [Splits] at hs ⊢
  by_cases hl : l ∈ pre
  · rw [World.count_concat_of_mem hl, Trail.surplus_concat_of_mem hl, hmem hl]
    omega
  · rw [World.count_concat_of_not_mem hl, Trail.surplus_concat_of_not_mem hl, hnew hl]
    omega

namespace Engine

/-- The state when the literals of the sorted list `pre` have been taken into account. -/
structure Taking (t : Trail) (bound : Nat) (pre : List Lit) (r : Remainder) : Prop where
  sub : ∀ l ∈ r.lits.toList, l ∈ pre
  known : ∀ l ∈ pre, l.var.index < t.varCount
  unset : ∀ l ∈ r.lits.toList, t.truth l = .unset
  distinct : (r.lits.toList.map Lit.var).Nodup
  last : ∀ m, r.last = some m → m ∈ pre ∧ t.truth m = .unset ∧
    (r.lits.toList.getLast? = some m ∨ m.neg ∈ pre)
  newest : ∀ l ∈ pre, t.truth l = .unset → ∃ m, r.last = some m ∧ l.index ≤ m.index
  used : ∃ k, k ≤ pre.length ∧ r.bound = Int64.ofInt (bound - k) ∧
    ∀ w : World, (∀ l ∈ t, l.holds w = true) → Splits t w pre r.lits.toList k

variable {t : Trail} {bound : Nat} {pre : List Lit} {r r' : Remainder} {l : Lit}

/-- The next literal of a sorted list is new to it, unless it is the last one or the complement
of the last one. -/
theorem Taking.fresh (ht : Taking t bound pre r) (hsorted : ∀ x ∈ pre, x.index ≤ l.index)
    (hunset : t.truth l = .unset) (hl : r.last ≠ some l) (hn : r.last ≠ some l.neg) :
    l ∉ pre ∧ l.neg ∉ pre := by
  constructor
  · intro hm
    obtain ⟨m, hm', hle⟩ := ht.newest l hm hunset
    have := hsorted m (ht.last m hm').1
    exact hl (hm'.trans (congrArg some (Lit.index_inj.1 (by omega))))
  · intro hm
    obtain ⟨m, hm', hle⟩ := ht.newest l.neg hm (by rw [Trail.truth_neg, hunset]; rfl)
    have hml := hsorted m (ht.last m hm').1
    have hnear := Lit.neg_index_le l.neg
    rw [Lit.neg_neg] at hnear
    rcases (by omega : m.index = l.neg.index ∨ m.index = l.index) with he | he
    · exact hn (hm'.trans (congrArg some (Lit.index_inj.1 he)))
    · exact hl (hm'.trans (congrArg some (Lit.index_inj.1 he)))

/-- If the last literal is the complement of the next one, it was kept. -/
theorem Taking.kept (ht : Taking t bound pre r) (hsorted : ∀ x ∈ pre, x.index ≤ l.index)
    (hn : r.last = some l.neg) :
    l ∉ pre ∧ t.truth l = .unset ∧ r.lits.toList.getLast? = some l.neg := by
  obtain ⟨hmem, hunset, hlast⟩ := ht.last _ hn
  have hl : t.truth l = .unset := by
    rw [Trail.truth_neg, Truth.neg_eq_unset] at hunset
    exact hunset
  have hnot : l ∉ pre := by
    intro hm
    obtain ⟨m, hm', hle⟩ := ht.newest l hm hl
    obtain rfl := Option.some.inj (hn.symm.trans hm')
    have := hsorted _ hmem
    exact Lit.neg_ne l (Lit.index_inj.1 (by omega))
  refine ⟨hnot, hl, hlast.resolve_right ?_⟩
  rwa [Lit.neg_neg]

/-- Lowering the word is lowering the number, up to what fits into a word. -/
theorem ofInt_pred (b k : Nat) : Int64.ofInt (b - k) - 1 = Int64.ofInt (b - (k + 1 : Nat)) := by
  rw [show ((b : Int) - ((k + 1 : Nat) : Int)) = (b - k) - 1 by omega, Int64.ofInt_sub (b - k) 1]
  rfl

/-! ## The four cases -/

section

variable (ht : Taking t bound pre r) (hknown : l.var.index < t.varCount)
include ht hknown

/-- The literals gone through are about known variables. -/
theorem Taking.known_concat : ∀ x ∈ pre ++ [l], x.var.index < t.varCount := by
  intro x hx
  rcases List.mem_append.1 hx with hx | hx
  · exact ht.known x hx
  · exact List.mem_singleton.1 hx ▸ hknown

/-- A true literal uses up the bound. -/
theorem Taking.spend (hv : t.Valid) (hl : t.truth l = .yes) :
    Taking t bound (pre ++ [l]) { r with bound := r.bound - 1 } where
  sub x hx := List.mem_append_left _ (ht.sub x hx)
  known := ht.known_concat hknown
  unset := ht.unset
  distinct := ht.distinct
  last m hm := by
    obtain ⟨hmem, hunset, hlast⟩ := ht.last m hm
    exact ⟨List.mem_append_left _ hmem, hunset, hlast.imp_right (List.mem_append_left _)⟩
  newest x hx hu := by
    rcases List.mem_append.1 hx with hx | hx
    · exact ht.newest x hx hu
    · rw [List.mem_singleton.1 hx, hl] at hu
      cases hu
  used := by
    obtain ⟨k, hk, hb, hcount⟩ := ht.used
    -- a world that agrees with the trail makes one more literal true
    refine ⟨k + 1, by simpa using hk, by rw [hb, ofInt_pred], fun w hw => ?_⟩
    refine (hcount w hw).concat (fun _ => ?_) fun _ => ?_
    · rw [if_pos hl]
      rfl
    · rw [if_pos (hw l ((hv.truth_yes l).1 hl))]
      rfl

/-- Of a complementary pair exactly one literal is true. -/
theorem Taking.pair (hsorted : ∀ x ∈ pre, x.index ≤ l.index) (hn : r.last = some l.neg) :
    Taking t bound (pre ++ [l]) ⟨r.bound - 1, r.lits.pop, some l⟩ := by
  obtain ⟨hnot, hunset, hlast⟩ := ht.kept hsorted hn
  obtain ⟨init, hinit⟩ := List.getLast?_eq_some_iff.1 hlast
  have hpop : r.lits.pop.toList = init := by rw [Array.toList_pop, hinit, List.dropLast_concat]
  obtain ⟨k, hk, hb, hcount⟩ := ht.used
  have hsub : ∀ x ∈ init, x ∈ r.lits.toList := fun x hx => hinit ▸ List.mem_append_left _ hx
  refine ⟨fun x hx => ?_, ht.known_concat hknown, fun x hx => ?_, ?_, fun m hm => ?_,
    fun x hx _ => ⟨l, rfl, ?_⟩, k + 1, by simpa using hk, by rw [hb, ofInt_pred], fun w hw => ?_⟩
  · exact List.mem_append_left _ (ht.sub x (hsub x (hpop ▸ hx)))
  · exact ht.unset x (hsub x (hpop ▸ hx))
  · have hd := ht.distinct
    rw [hinit, List.map_append, List.nodup_append] at hd
    show (r.lits.pop.toList.map Lit.var).Nodup
    rw [hpop]
    exact hd.1
  · obtain rfl := Option.some.inj hm
    exact ⟨by simp, hunset, Or.inr (List.mem_append_left _ (ht.last _ hn).1)⟩
  · rcases List.mem_append.1 hx with hx | hx
    · exact hsorted x hx
    · exact Nat.le_of_eq (congrArg Lit.index (List.mem_singleton.1 hx))
  -- one of the two is true in every world, which is what the bound is lowered by
  · have hone : (if l.neg.holds w = true then 1 else 0) + (if l.holds w = true then 1 else 0) = 1 := by
      rw [Lit.holds_neg]
      cases l.holds w <;> rfl
    have hsplit : r.lits.toList.countP (Lit.holds w) =
        init.countP (Lit.holds w) + if l.neg.holds w = true then 1 else 0 := by
      rw [hinit, List.countP_append, List.countP_singleton]
    refine (hcount w hw).concat (fun hmem => absurd hmem hnot) fun _ => ?_
    simp only [hpop]
    omega

/-- A false or repeated literal is left out. -/
theorem Taking.skip (hv : t.Valid) (hsorted : ∀ x ∈ pre, x.index ≤ l.index)
    (hl : t.truth l = .no ∨ r.last = some l) : Taking t bound (pre ++ [l]) r where
  sub x hx := List.mem_append_left _ (ht.sub x hx)
  known := ht.known_concat hknown
  unset := ht.unset
  distinct := ht.distinct
  last m hm := by
    obtain ⟨hmem, hunset, hlast⟩ := ht.last m hm
    exact ⟨List.mem_append_left _ hmem, hunset, hlast.imp_right (List.mem_append_left _)⟩
  newest x hx hu := by
    rcases List.mem_append.1 hx with hx | hx
    · exact ht.newest x hx hu
    · obtain rfl := List.mem_singleton.1 hx
      rcases hl with hno | hlast
      · rw [hno] at hu
        cases hu
      · exact ⟨x, hlast, Nat.le_refl _⟩
  used := by
    obtain ⟨k, hk, hb, hcount⟩ := ht.used
    have hnot_yes : t.truth l ≠ .yes := by
      rcases hl with hno | hlast
      · simp [hno]
      · simp [(ht.last l hlast).2.1]
    refine ⟨k, by simp; omega, hb, fun w hw => (hcount w hw).concat (fun _ => ?_) fun hnot => ?_⟩
    · rw [if_neg hnot_yes]
      rfl
    · rcases hl with hno | hlast
      · have hlw := hw l.neg ((hv.truth_no l).1 hno)
        rw [Lit.holds_neg, Bool.not_eq_true'] at hlw
        rw [hlw]
        rfl
      · exact absurd (ht.last l hlast).1 hnot

/-- Any other literal is kept. -/
theorem Taking.keep (hsorted : ∀ x ∈ pre, x.index ≤ l.index) (hunset : t.truth l = .unset)
    (hl : r.last ≠ some l) (hn : r.last ≠ some l.neg) :
    Taking t bound (pre ++ [l]) { r with lits := r.lits.push l, last := some l } := by
  obtain ⟨hnot, hnotn⟩ := ht.fresh hsorted hunset hl hn
  obtain ⟨k, hk, hb, hcount⟩ := ht.used
  refine ⟨fun x hx => ?_, ht.known_concat hknown, fun x hx => ?_, ?_, fun m hm => ?_,
    fun x hx _ => ⟨l, rfl, ?_⟩, k, by simp; omega, hb, fun w hw => ?_⟩
  · rw [Array.toList_push] at hx
    rcases List.mem_append.1 hx with hx | hx
    · exact List.mem_append_left _ (ht.sub x hx)
    · exact List.mem_append_right _ hx
  · rw [Array.toList_push] at hx
    rcases List.mem_append.1 hx with hx | hx
    · exact ht.unset x hx
    · exact List.mem_singleton.1 hx ▸ hunset
  · show ((r.lits.push l).toList.map Lit.var).Nodup
    rw [Array.toList_push, List.map_append, List.nodup_append]
    refine ⟨ht.distinct, by simp, fun v hv u hu => ?_⟩
    rw [List.map_singleton, List.mem_singleton] at hu
    rintro rfl
    -- neither the literal nor its complement has been kept before
    obtain ⟨x, hx, hxl⟩ := List.mem_map.1 hv
    rcases Lit.eq_or_eq_neg (hxl.trans hu) with rfl | rfl
    · exact hnot (ht.sub _ hx)
    · exact hnotn (ht.sub _ hx)
  · obtain rfl := Option.some.inj hm
    exact ⟨by simp, hunset, Or.inl (by simp)⟩
  · rcases List.mem_append.1 hx with hx | hx
    · exact hsorted x hx
    · exact Nat.le_of_eq (congrArg Lit.index (List.mem_singleton.1 hx))
  · have hsplit : (r.lits.push l).toList.countP (Lit.holds w) =
        r.lits.toList.countP (Lit.holds w) + if l.holds w = true then 1 else 0 := by
      rw [Array.toList_push, List.countP_append, List.countP_singleton]
    refine (hcount w hw).concat (fun hmem => absurd hmem hnot) fun _ => ?_
    simp only [hsplit]
    omega

/-- Whatever is done with the next literal, the invariant goes on. -/
theorem Taking.next (hv : t.Valid) (hsorted : ∀ x ∈ pre, x.index ≤ l.index)
    (h : r.take t l = .ok r') : Taking t bound (pre ++ [l]) r' := by
  simp only [Remainder.take, bind_eq_ok] at h
  obtain ⟨b, hb, h⟩ := h
  obtain ⟨-, rfl⟩ := Trail.isTrue_eq_ok hb
  split at h
  next hyes =>
      rw [pure_eq_ok] at h
      exact h ▸ ht.spend hknown hv (of_decide_eq_true hyes)
  next hyes =>
      split at h
      next hn =>
          rw [pure_eq_ok] at h
          exact h ▸ ht.pair hknown hsorted hn
      next hn =>
          rw [bind_eq_ok] at h
          obtain ⟨f, hf, h⟩ := h
          obtain ⟨-, rfl⟩ := Trail.isFalse_eq_ok hf
          split at h
          next hskip =>
              rw [pure_eq_ok] at h
              rw [Bool.or_eq_true, decide_eq_true_iff, decide_eq_true_iff] at hskip
              exact h ▸ ht.skip hknown hv hsorted hskip
          next hskip =>
              rw [pure_eq_ok] at h
              rw [Bool.or_eq_true, decide_eq_true_iff, decide_eq_true_iff, not_or] at hskip
              have hunset : t.truth l = .unset := by
                cases hl : t.truth l with
                | unset => rfl
                | yes => exact absurd (decide_eq_true hl) hyes
                | no => exact absurd hl hskip.1
              exact h ▸ ht.keep hknown hsorted hunset hskip.2 hn

end

/-! ## The whole list -/

/-- Nothing has been taken into account at the start. -/
theorem taking_nil (t : Trail) (bound : Nat) : Taking t bound [] { bound := Int64.ofNat bound } where
  sub := by simp
  known := by simp
  unset := by simp
  distinct := List.nodup_nil
  last := by simp
  newest := by simp
  used := ⟨0, Nat.le_refl _, by
    rw [Int.natCast_zero, Int.sub_zero]
    exact (Int64.ofInt_eq_ofNat).symm, fun w _ => by simp [Splits, World.count, Trail.surplus]⟩

/-- The whole list has been taken into account at the end. -/
theorem taking_of_foldlM {lits : List Lit} (hv : t.Valid)
    (h : (Lit.sort lits).foldlM (Remainder.take t) { bound := Int64.ofNat bound } = .ok r) :
    Taking t bound (Lit.sort lits) r := by
  obtain ⟨pre, hpre, ht⟩ := foldlM_ok
    (fun rest r => ∃ pre, pre ++ rest = Lit.sort lits ∧ Taking t bound pre r)
    (fun l rest r r' ⟨pre, hpre, ht⟩ htake => by
      refine ⟨pre ++ [l], by simpa using hpre, ht.next ?_ hv (fun x hx => ?_) htake⟩
      · simp only [Remainder.take, bind_eq_ok] at htake
        obtain ⟨b, hb, -⟩ := htake
        exact (Trail.isTrue_eq_ok hb).1
      · have hsorted := Lit.pairwise_sort lits
        rw [← hpre, List.pairwise_append] at hsorted
        exact hsorted.2.2 x hx l (by simp))
    ⟨[], rfl, taking_nil t bound⟩ h
  rw [List.append_nil] at hpre
  exact hpre ▸ ht

/-! ## What is left means the same -/

section

variable {lits : List Lit} {w : World} (ht : Taking t bound (Lit.sort lits) r)
  (hlen : lits.length < 2 ^ 63) (hw : ∀ l ∈ t, l.holds w = true)
include ht hlen hw

/-- What is left holds if the constraint does, with the surplus added to the true literals. -/
theorem Taking.countP_le_iff (hb : bound < 2 ^ 63) :
    (r.lits.toList.countP (Lit.holds w) : Int) ≤ r.bound.toInt ↔
      w.count lits + t.surplus lits ≤ bound := by
  obtain ⟨k, hk, hbound, hs⟩ := ht.used
  rw [(Lit.sort_perm lits).length_eq] at hk
  have hsplits := hs w hw
  rw [Splits, World.count_congr fun l => Lit.mem_sort,
    Trail.surplus_congr (Lit.sort_perm lits)] at hsplits
  rw [hbound, Int64.toInt_ofInt_of_le (by omega) (by omega)]
  omega

/-- If what is left holds, so does the constraint. A bound that is no signed word exceeds the
length of every list. -/
theorem Taking.count_le (hr : (r.lits.toList.countP (Lit.holds w) : Int) ≤ r.bound.toInt) :
    w.count lits ≤ bound := by
  rcases Nat.lt_or_ge bound (2 ^ 63) with hb | hb
  · have := (ht.countP_le_iff hlen hw hb).1 hr
    omega
  · have := World.count_le_length w lits
    omega

/-- Without repeated literals the converse is true as well. -/
theorem Taking.countP_le (hb : bound < 2 ^ 63) (hnd : lits.Nodup) (hc : w.count lits ≤ bound) :
    (r.lits.toList.countP (Lit.holds w) : Int) ≤ r.bound.toInt := by
  rw [ht.countP_le_iff hlen hw hb, Trail.surplus_eq_zero (hnd.filter _)]
  exact hc

end

end Engine

end CardSat
