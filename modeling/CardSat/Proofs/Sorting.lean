import CardSat.Engine.Adding
import CardSat.Proofs.Counting
import CardSat.Proofs.Trail
import CardSat.Proofs.WatchIndex
import Mathlib.Data.List.Sort

set_option autoImplicit false

/-! # Sorted lists of literals

Sorting brings equal and complementary literals together. So a sorted list without equal neighbours
has no repeated literals, and one without complementary neighbours, besides, has every variable only
once.

Literals are sorted by their index, which is twice that of the variable, and one more where the
literal is negated. This is why the two literals of a variable are neighbours, and why tests of
neighbours are enough to find repetitions and tautologies.
-/

namespace CardSat

/-! ## Repetitions -/

section

variable {α : Type} [DecidableEq α]

theorem eraseReps_loop (as : List α) (a : α) (acc : List α) :
    List.eraseRepsBy.loop (· == ·) a as acc =
      acc.reverse ++ List.eraseRepsBy.loop (· == ·) a as [] := by
  induction as generalizing a acc with
  | nil => simp [List.eraseRepsBy.loop]
  | cons b as ih =>
      rw [List.eraseRepsBy.loop, List.eraseRepsBy.loop]
      cases a == b with
      | true => exact ih a acc
      | false =>
          simp only
          rw [ih b (a :: acc), ih b [a]]
          simp

theorem eraseReps_cons_cons (a b : α) (as : List α) :
    (a :: b :: as).eraseReps =
      if a = b then (a :: as).eraseReps else a :: (b :: as).eraseReps := by
  simp only [List.eraseReps, List.eraseRepsBy]
  rw [List.eraseRepsBy.loop]
  by_cases hab : a = b
  · simp [hab]
  · rw [if_neg hab, show (a == b) = false by simpa using hab]
    simp only
    rw [eraseReps_loop]
    rfl

theorem mem_eraseReps {x : α} {as : List α} : x ∈ as.eraseReps ↔ x ∈ as := by
  cases as with
  | nil => simp [List.eraseReps, List.eraseRepsBy]
  | cons a as =>
      induction as generalizing a with
      | nil => simp [List.eraseReps, List.eraseRepsBy, List.eraseRepsBy.loop]
      | cons b as ih =>
          rw [eraseReps_cons_cons]
          split
          next hab =>
              rw [ih, hab]
              simp
          next => rw [List.mem_cons, ih, List.mem_cons (a := x) (b := a)]

/-- In an ordered list equal elements are neighbours, so none is left twice. -/
theorem pairwise_eraseReps {r : α → α → Prop} {as : List α}
    (hanti : ∀ a b, r a b → r b a → a = b) (h : as.Pairwise r) :
    as.eraseReps.Pairwise fun a b => r a b ∧ a ≠ b := by
  cases as with
  | nil => simp [List.eraseReps, List.eraseRepsBy]
  | cons a as =>
      induction as generalizing a with
      | nil => simp [List.eraseReps, List.eraseRepsBy, List.eraseRepsBy.loop]
      | cons b as ih =>
          rw [List.pairwise_cons] at h
          rw [eraseReps_cons_cons]
          split
          next hab => exact ih a (hab ▸ h.2)
          next hab =>
              rw [List.pairwise_cons]
              refine ⟨fun x hx => ⟨h.1 x (mem_eraseReps.1 hx), ?_⟩, ih b h.2⟩
              rintro rfl
              rcases List.mem_cons.1 (mem_eraseReps.1 hx) with rfl | hx
              · exact hab rfl
              · exact hab (hanti a b (h.1 b (by simp)) ((List.pairwise_cons.1 h.2).1 a hx))

end

namespace Lit

/-! ## Sorting -/

theorem neg_index_le (l : Lit) : l.neg.index ≤ l.index + 1 := by
  rcases l with ⟨v, _ | _⟩
  · simp [neg, index]
  · simp only [neg, index, Bool.not_true, Bool.toNat_false, Bool.toNat_true]
    omega

theorem mem_sort {l : Lit} {ls : List Lit} : l ∈ sort ls ↔ l ∈ ls := List.mem_mergeSort

theorem sort_perm (ls : List Lit) : (sort ls).Perm ls := List.mergeSort_perm _ _

theorem pairwise_sort (ls : List Lit) : (sort ls).Pairwise fun a b => a.index ≤ b.index := by
  have h : (ls.mergeSort le).Pairwise fun a b => le a b = true := List.pairwise_mergeSort
    (fun a b c hab hbc => by simp only [le, decide_eq_true_eq] at *; omega)
    (fun a b => by simp only [le, Bool.or_eq_true, decide_eq_true_eq]; omega) ls
  exact h.imp fun hab => of_decide_eq_true hab

theorem mem_sortDistinct {l : Lit} {ls : List Lit} : l ∈ sortDistinct ls ↔ l ∈ ls :=
  mem_eraseReps.trans mem_sort

theorem pairwise_sortDistinct (ls : List Lit) :
    (sortDistinct ls).Pairwise fun a b => a.index < b.index :=
  (pairwise_eraseReps (fun _ _ hab hba => index_inj.1 (Nat.le_antisymm hab hba))
    (pairwise_sort ls)).imp fun h => Nat.lt_of_le_of_ne h.1 fun he => h.2 (index_inj.1 he)

theorem nodup_sortDistinct (ls : List Lit) : (sortDistinct ls).Nodup :=
  (pairwise_sortDistinct ls).imp fun {a b} (hab : a.index < b.index) (he : a = b) => by
    rw [he] at hab
    exact Nat.lt_irrefl _ hab

theorem sort_of_pairwise {ls : List Lit} (h : ls.Pairwise fun a b => a.index < b.index) :
    sort ls = ls :=
  List.mergeSort_of_pairwise (h.imp fun hab => decide_eq_true (Nat.le_of_lt hab))

/-- A list in strictly ascending order stays as it is. -/
theorem sortDistinct_of_pairwise {ls : List Lit}
    (h : ls.Pairwise fun a b => a.index < b.index) : sortDistinct ls = ls := by
  rw [sortDistinct, sort_of_pairwise h]
  induction ls with
  | nil => rfl
  | cons a ls ih =>
      cases ls with
      | nil => rfl
      | cons b ls =>
          obtain ⟨hab, hls⟩ := List.pairwise_cons.1 h
          rw [eraseReps_cons_cons, if_neg, ih hls]
          rintro rfl
          exact Nat.lt_irrefl _ (hab a (by simp))

/-- The insertion sort gives the same list, and can be evaluated. -/
theorem sort_eq_insertionSort (ls : List Lit) :
    sort ls = ls.insertionSort fun a b => a.le b = true := by
  have : Std.Antisymm fun a b : Lit => (a.le b : Prop) := ⟨fun a b hab hba =>
    index_inj.1 (Nat.le_antisymm (of_decide_eq_true hab) (of_decide_eq_true hba))⟩
  have : Std.Total fun a b : Lit => (a.le b : Prop) := ⟨fun a b => by
    simp only [le, decide_eq_true_eq]
    omega⟩
  have : IsTrans Lit fun a b : Lit => (a.le b : Prop) := ⟨fun a b c hab hbc => by
    simp only [le, decide_eq_true_eq] at *
    omega⟩
  simpa [sort] using List.mergeSort_eq_insertionSort (fun a b : Lit => (a.le b : Prop)) ls

theorem length_sortDistinct_le (ls : List Lit) : (sortDistinct ls).length ≤ ls.length :=
  (List.subperm_of_subset (nodup_sortDistinct ls) fun _ hl => mem_sortDistinct.1 hl).length_le

theorem nodup_map_neg {ls : List Lit} (h : ls.Nodup) : (ls.map neg).Nodup :=
  h.map fun a b hab => by rw [← neg_neg a, hab, neg_neg]

end Lit

/-! ## At least and at most -/

namespace World

variable {w : World} {ls : List Lit} {bound : Nat}

theorem count_eq_countP_sortDistinct : w.count ls = (Lit.sortDistinct ls).countP (Lit.holds w) := by
  rw [← count_of_nodup (Lit.nodup_sortDistinct ls)]
  exact count_congr fun l => Lit.mem_sortDistinct.symm

/-- At least `bound` literals are true if at most the others are false. -/
theorem atLeastHolds_iff (hb : bound ≤ (Lit.sortDistinct ls).length) :
    w.atLeastHolds ls bound = true ↔
      w.atMostHolds ((Lit.sortDistinct ls).map Lit.neg) ((Lit.sortDistinct ls).length - bound) =
        true := by
  have hnd := Lit.nodup_sortDistinct ls
  have hneg : ((Lit.sortDistinct ls).map Lit.neg).countP (Lit.holds w) =
      (Lit.sortDistinct ls).countP fun l => !l.holds w := by
    rw [List.countP_map]
    exact List.countP_congr fun l _ => by simp
  have hsum := List.length_eq_countP_add_countP (Lit.holds w) (l := Lit.sortDistinct ls)
  have hnot : (Lit.sortDistinct ls).countP (fun l => decide ¬ l.holds w = true) =
      (Lit.sortDistinct ls).countP fun l => !l.holds w :=
    List.countP_congr fun l _ => by simp
  rw [atLeastHolds, atMostHolds, decide_eq_true_iff, decide_eq_true_iff,
    count_of_nodup (Lit.nodup_map_neg hnd), hneg, count_eq_countP_sortDistinct]
  omega

/-- No list has more true literals than distinct ones. -/
theorem atLeastHolds_of_lt (hb : (Lit.sortDistinct ls).length < bound) :
    w.atLeastHolds ls bound = false := by
  have := List.countP_le_length (p := Lit.holds w) (l := Lit.sortDistinct ls)
  rw [atLeastHolds, decide_eq_false_iff_not, count_eq_countP_sortDistinct]
  omega

end World

/-! ## Complementary neighbours -/

namespace Engine

theorem exists_complementary {ls : List Lit} (h : complementaryNeighbours ls = true) :
    ∃ l ∈ ls, l.neg ∈ ls := by
  induction ls with
  | nil => cases h
  | cons a ls ih =>
      cases ls with
      | nil => cases h
      | cons b ls =>
          simp only [complementaryNeighbours, Bool.or_eq_true, decide_eq_true_eq] at h
          rcases h with rfl | h
          · exact ⟨a, by simp, by simp⟩
          · obtain ⟨l, hl, hn⟩ := ih h
            exact ⟨l, List.mem_cons_of_mem _ hl, List.mem_cons_of_mem _ hn⟩

/-- Without complementary neighbours, a sorted list has every variable only once. -/
theorem nodup_vars {ls : List Lit} (hs : ls.Pairwise fun a b => a.index < b.index)
    (h : complementaryNeighbours ls = false) : (ls.map Lit.var).Nodup := by
  induction ls with
  | nil => exact List.nodup_nil
  | cons a ls ih =>
      cases ls with
      | nil => exact List.nodup_singleton _
      | cons b ls =>
          simp only [complementaryNeighbours, Bool.or_eq_false_iff, decide_eq_false_iff_not] at h
          rw [List.pairwise_cons] at hs
          rw [List.map_cons, List.nodup_cons]
          refine ⟨fun hmem => ?_, ih hs.2 h.2⟩
          obtain ⟨x, hx, hxa⟩ := List.mem_map.1 hmem
          have hab := hs.1 b (by simp)
          have hax := hs.1 x hx
          have hbx : b.index ≤ x.index := by
            rcases List.mem_cons.1 hx with rfl | hx
            · exact Nat.le_refl _
            · exact Nat.le_of_lt ((List.pairwise_cons.1 hs.2).1 x hx)
          rcases Lit.eq_or_eq_neg hxa with rfl | rfl
          · exact Nat.lt_irrefl _ hax
          · -- nothing fits between a literal and its complement
            have := Lit.neg_index_le a
            exact h.1 (Lit.index_inj.1 (by omega))

end Engine

end CardSat
