import Mathlib.Data.List.Nodup
import Mathlib.Data.List.Perm.Basic

set_option autoImplicit false

/-! # Lists

Counting the elements that pass a test, and the exchange by which an array drops an element: the
last one takes its place. The order of the others is not kept, so what is said about the exchange is
said up to a permutation.
-/

namespace CardSat

theorem countP_lt_countP {α : Type} {p q : α → Bool} {ls : List α} {a : α}
    (hpq : ∀ x ∈ ls, p x → q x) (ha : a ∈ ls) (hq : q a) (hp : ¬ p a) :
    ls.countP p < ls.countP q := by
  induction ls with
  | nil => cases ha
  | cons b ls ih =>
      have hle : ls.countP p ≤ ls.countP q :=
        List.countP_mono_left fun x hx => hpq x (List.mem_cons_of_mem _ hx)
      rcases List.mem_cons.1 ha with rfl | ha
      · rw [List.countP_cons_of_pos hq, List.countP_cons_of_neg hp]
        omega
      · have := ih (fun x hx => hpq x (List.mem_cons_of_mem _ hx)) ha
        rw [List.countP_cons, List.countP_cons]
        have hb := hpq b (by simp)
        by_cases hpb : p b
        · simp only [hpb, hb hpb, if_true]
          omega
        · rw [if_neg hpb]
          omega

/-- Counting one element more. -/
theorem countP_insert {α : Type} {p q : α → Bool} {ls : List α} {a : α} (hnd : ls.Nodup)
    (ha : a ∈ ls) (hp : p a = false) (hqa : q a = true) (hq : ∀ x ∈ ls, x ≠ a → q x = p x) :
    ls.countP q = ls.countP p + 1 := by
  induction ls with
  | nil => cases ha
  | cons b ls ih =>
      rw [List.nodup_cons] at hnd
      rw [List.countP_cons, List.countP_cons]
      rcases List.mem_cons.1 ha with rfl | ha
      · have hrest : ls.countP q = ls.countP p := List.countP_congr fun x hx => by
          rw [hq x (List.mem_cons_of_mem _ hx) (by rintro rfl; exact hnd.1 hx)]
        simp [hrest, hp, hqa]
      · have hba : b ≠ a := by
          rintro rfl
          exact hnd.1 ha
        rw [ih hnd.2 ha fun x hx => hq x (List.mem_cons_of_mem _ hx), hq b (by simp) hba]
        omega

theorem two_le_countP {α : Type} [DecidableEq α] {p : α → Bool} {ls : List α} {a b : α}
    (ha : a ∈ ls) (hb : b ∈ ls) (hab : a ≠ b) (hpa : p a) (hpb : p b) : 2 ≤ ls.countP p := by
  have h1 : 0 < ls.countP fun x => decide (x = a) := List.countP_pos_iff.2 ⟨a, ha, by simp⟩
  have h2 : (ls.countP fun x => decide (x = a)) < ls.countP p :=
    countP_lt_countP (by intro x _ hx; rw [of_decide_eq_true hx]; exact hpa) hb hpb
      (by simpa using hab.symm)
  omega

theorem two_le_length {α : Type} {ls : List α} (hnil : ls ≠ []) (hsingle : ∀ a, ls ≠ [a]) :
    2 ≤ ls.length := by
  rcases ls with _ | ⟨a, _ | ⟨b, rest⟩⟩
  · exact absurd rfl hnil
  · exact absurd rfl (hsingle a)
  · simp

theorem mem_zip_replicate {α β : Type} {ls : List α} {a : α} (b : β) (ha : a ∈ ls) :
    (a, b) ∈ ls.zip (List.replicate ls.length b) := by
  induction ls with
  | nil => cases ha
  | cons x ls ih =>
      rw [List.length_cons, List.replicate_succ, List.zip_cons_cons]
      rcases List.mem_cons.1 ha with rfl | ha
      · exact List.mem_cons_self
      · exact List.mem_cons_of_mem _ (ih ha)

theorem nodup_eraseDups {α : Type} [DecidableEq α] (ls : List α) : ls.eraseDups.Nodup := by
  induction hn : ls.length using Nat.strongRecOn generalizing ls with
  | ind n ih =>
      cases ls with
      | nil => simp
      | cons a ls =>
          rw [List.eraseDups_cons, List.nodup_cons]
          refine ⟨by simp [List.mem_eraseDups], ih _ ?_ _ rfl⟩
          rw [← hn]
          exact Nat.lt_succ_of_le (List.length_filter_le _ _)

/-- A list loses its head when its last element takes the place of the head. -/
theorem perm_last_to_front {α : Type} {ls : List α} {a : α} (ha : ls[0]? = some a) :
    ls.Perm (a :: (ls.set 0 (ls.getLast?.getD a)).dropLast) := by
  cases ls with
  | nil => cases ha
  | cons x as =>
      obtain rfl : x = a := by simpa using ha
      rcases List.eq_nil_or_concat as with rfl | ⟨bs, b, rfl⟩
      · exact List.Perm.refl _
      · rw [List.concat_eq_append]
        have hlast : ((x :: bs) ++ [b]).getLast? = some b := List.getLast?_concat
        have hdrop : ((b :: bs) ++ [b]).dropLast = b :: bs := List.dropLast_concat
        rw [List.cons_append] at hlast hdrop
        rw [hlast, Option.getD_some, List.set_cons_zero, hdrop]
        exact List.Perm.cons _ List.perm_append_comm

end CardSat
