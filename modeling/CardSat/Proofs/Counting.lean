import CardSat.Semantics
import CardSat.Proofs.List

set_option autoImplicit false

/-! # Counting true literals

`World.count` counts distinct literals. On a list without repetitions it is `List.countP`
(`count_of_nodup`), and it depends only on which literals a list has (`count_congr`).
-/

namespace CardSat

section

variable {α β : Type} [DecidableEq α] [DecidableEq β] {xs ys : List α}

theorem perm_eraseDups (h : ∀ a, a ∈ xs ↔ a ∈ ys) : xs.eraseDups.Perm ys.eraseDups := by
  rw [List.perm_ext_iff_of_nodup (nodup_eraseDups _) (nodup_eraseDups _)]
  intro a
  rw [List.mem_eraseDups, List.mem_eraseDups, h]

theorem perm_eraseDups_of_nodup (h : xs.Nodup) : xs.eraseDups.Perm xs := by
  rw [List.perm_ext_iff_of_nodup (nodup_eraseDups _) h]
  intro a
  rw [List.mem_eraseDups]

/-- Distinct entries stay distinct under a map that is injective on them. -/
theorem countP_eraseDups_map {f : α → β} (hinj : ∀ a ∈ xs, ∀ b ∈ xs, f a = f b → a = b)
    (p : β → Bool) : (xs.map f).eraseDups.countP p = xs.eraseDups.countP (p ∘ f) := by
  have hnodup : (xs.eraseDups.map f).Nodup := by
    rw [List.Nodup, List.pairwise_map]
    refine (nodup_eraseDups xs).imp_of_mem fun {a b} ha hb hne heq => hne ?_
    exact hinj a (List.mem_eraseDups.1 ha) b (List.mem_eraseDups.1 hb) heq
  have hperm : (xs.map f).eraseDups.Perm (xs.eraseDups.map f) := by
    rw [List.perm_ext_iff_of_nodup (nodup_eraseDups _) hnodup]
    intro b
    simp only [List.mem_eraseDups, List.mem_map]
  rw [hperm.countP_eq, List.countP_map]

end

namespace World

variable {w : World} {xs ys : List Lit}

theorem count_congr (h : ∀ l, l ∈ xs ↔ l ∈ ys) : w.count xs = w.count ys :=
  (perm_eraseDups h).countP_eq _

theorem count_of_nodup (h : xs.Nodup) : w.count xs = xs.countP (Lit.holds w) :=
  (perm_eraseDups_of_nodup h).countP_eq _

theorem clauseHolds_congr (h : ∀ l, l ∈ xs ↔ l ∈ ys) : w.clauseHolds xs = w.clauseHolds ys := by
  rw [Bool.eq_iff_iff, clauseHolds_iff, clauseHolds_iff]
  simp only [h]

theorem atMostHolds_congr (h : ∀ l, l ∈ xs ↔ l ∈ ys) (k : Nat) :
    w.atMostHolds xs k = w.atMostHolds ys k := by
  rw [atMostHolds, atMostHolds, count_congr h]

end World

end CardSat
