import CardSat.Analysis.Redundancy
import CardSat.Proofs.Table.Sparse

set_option autoImplicit false

/-! # Marks of variables

Between two analyses every mark is clear (`Marks.Clean`). An analysis sets marks as it goes and
clears them at the end, and each of its invariants is about what is marked in between. So marks are
read through `markOf`, which is total, and a lookup that succeeds agrees with it (`of_eq_ok`).
-/

namespace CardSat

namespace Marks

/-- The mark of a variable; an unknown variable counts as unmarked. -/
def markOf (m : Marks) (v : Var) : Mark := (m.get? v.index).getD .clear

/-- No variable is marked. -/
def Clean (m : Marks) : Prop := ∀ v, m.markOf v = .clear

variable {m m' : Marks} {u v : Var} {x : Mark}

/-- A mark that is found is the one that `markOf` reads. -/
theorem of_eq_ok (h : m.of v = .ok x) : m.markOf v = x := by
  rw [of, SparseTable.fetch_eq_ok] at h
  rw [markOf, h, Option.getD_some]

/-- A new variable changes no other mark. -/
theorem markOf_insert (m : Marks) (v : Var) (x : Mark) (u : Var) :
    markOf (m.insert v.index x) u = if u = v then x else m.markOf u := by
  simp only [markOf, SparseTable.get?_insert, Var.index_inj]
  split <;> rfl

/-- Setting a mark changes this one and no other. -/
theorem set_eq_ok (h : m.set v x = .ok m') (u : Var) :
    m'.markOf u = if u = v then x else m.markOf u := by
  obtain ⟨-, rfl⟩ := SparseTable.replace_eq_ok.1 h
  exact markOf_insert m v x u

/-- What is marked after one mark was cleared. -/
theorem ne_clear_of_set (h : m.set v .clear = .ok m') (hu : m'.markOf u ≠ .clear) :
    u ≠ v ∧ m.markOf u ≠ .clear := by
  rw [set_eq_ok h] at hu
  split at hu
  next => exact absurd rfl hu
  next hne => exact ⟨hne, hu⟩

/-- Clearing the marks of some literals changes these and no others. -/
theorem clearAll_eq_ok {lits : List Lit} (h : m.clearAll lits = .ok m') (u : Var) :
    m'.markOf u = if u ∈ lits.map Lit.var then .clear else m.markOf u := by
  induction lits generalizing m with
  | nil =>
      rw [clearAll, List.foldlM_nil, pure_eq_ok] at h
      simp [h]
  | cons l lits ih =>
      rw [clearAll, List.foldlM_cons, bind_eq_ok] at h
      obtain ⟨m₁, h₁, h⟩ := h
      rw [ih h, set_eq_ok h₁]
      by_cases hl : u ∈ lits.map Lit.var
      · rw [if_pos hl, if_pos (by simp [hl])]
      · rw [if_neg hl, List.map_cons]
        simp only [List.mem_cons, hl, or_false]

/-- A table without variables has no marks. -/
theorem clean_empty : Clean SparseTable.empty := by
  intro v
  simp [markOf]

/-- A new variable comes without a mark. -/
theorem clean_insert (h : m.Clean) (v : Var) : Clean (m.insert v.index .clear) := by
  intro u
  rw [markOf_insert]
  split
  · rfl
  · exact h u

/-- A variable that is forgotten takes its mark with it. -/
theorem clean_truncate (h : m.Clean) (n : Nat) : Clean (m.truncate n) := by
  intro u
  rw [markOf, SparseTable.get?_truncate]
  split
  · exact h u
  · rfl

end Marks

end CardSat
