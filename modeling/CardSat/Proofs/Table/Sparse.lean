import CardSat.Table.Sparse
import CardSat.Proofs.Checked

set_option autoImplicit false

/-! # What a sparse table holds

Each operation on a table is described by what `get?` answers afterwards. The array behind a table
is not looked at again: two tables that answer alike are alike for all purposes, though their arrays
may have different lengths.

The entries of a table are listed in ascending order of their keys, each key once, and they are
those that `get?` answers with (`mem_entries`). A loop over the entries is therefore a loop over the
keys in use.
-/

namespace CardSat

theorem Var.index_inj {u v : Var} : u.index = v.index ↔ u = v := by
  cases u; cases v
  simp

namespace SparseTable

variable {α β : Type} {t t' : SparseTable α} {i j : Nat} {a : α}

theorem get?_eq_some : t.get? i = some a ↔ t.slots[i]? = some (some a) := by
  rw [get?, Array.getD_eq_getD_getElem?]
  cases h : t.slots[i]? with
  | none => simp
  | some x => simp

theorem fetch_eq_ok : t.fetch i = .ok a ↔ t.get? i = some a := present_eq_ok

theorem contains_eq_true : t.contains i = true ↔ ∃ a, t.get? i = some a := by
  rw [contains, Option.isSome_iff_exists]

@[simp] theorem get?_empty (i : Nat) : (empty : SparseTable α).get? i = none := by
  simp [get?, empty]

theorem get?_insert (t : SparseTable α) (i : Nat) (a : α) (j : Nat) :
    (t.insert i a).get? j = if j = i then some a else t.get? j := by
  unfold insert
  split
  next hi =>
      by_cases hj : j = i
      · subst hj
        simp [get?, Array.getD_eq_getD_getElem?, hi]
      · simp [get?, Array.getD_eq_getD_getElem?, hj, Ne.symm hj]
  next hi =>
      have hsize : (t.slots ++ Array.replicate (i - t.slots.size) none).size = i := by
        simp only [Array.size_append, Array.size_replicate]
        omega
      simp only [get?, Array.getD_eq_getD_getElem?, Array.getElem?_push, hsize]
      split
      next => rfl
      next hne =>
          rw [Array.getElem?_append]
          split
          next => rfl
          next hlt =>
              rw [Array.getElem?_eq_none (Nat.le_of_not_lt hlt), Array.getElem?_replicate]
              split <;> rfl

theorem replace_eq_ok : t.replace i a = .ok t' ↔ (∃ b, t.get? i = some b) ∧ t' = t.insert i a := by
  unfold replace
  split
  next h =>
      rw [contains_eq_true] at h
      exact ⟨fun he => ⟨h, (Except.ok.inj he).symm⟩, fun he => by rw [he.2]⟩
  next h =>
      rw [contains_eq_true] at h
      exact ⟨by simp, fun he => absurd he.1 h⟩

theorem get?_erase (t : SparseTable α) (i j : Nat) :
    (t.erase i).get? j = if j = i then none else t.get? j := by
  by_cases hj : j = i
  · subst hj
    simp only [erase, get?, Array.getD_eq_getD_getElem?, Array.getElem?_setIfInBounds, if_true]
    split <;> rfl
  · simp [erase, get?, Array.getD_eq_getD_getElem?, hj, Ne.symm hj]

theorem get?_truncate (t : SparseTable α) (n j : Nat) :
    (t.truncate n).get? j = if j < n then t.get? j else none := by
  simp only [truncate, get?, Array.getD_eq_getD_getElem?, Array.take_eq_extract,
    ← Array.getElem?_toList, Array.toList_extract, List.extract_eq_take_drop, List.drop_zero,
    Nat.sub_zero, List.getElem?_take]
  split <;> rfl

@[simp] theorem get?_map (t : SparseTable α) (f : α → β) (i : Nat) :
    (t.map f).get? i = (t.get? i).map f := by
  simp only [map, get?, Array.getD_eq_getD_getElem?, Array.getElem?_map]
  cases t.slots[i]? <;> rfl

/-- Every number below `n` is a key. -/
def Covers (t : SparseTable α) (n : Nat) : Prop := ∀ i < n, ∃ a, t.get? i = some a

namespace Covers

variable {n : Nat}

theorem insert (h : t.Covers n) (i : Nat) (a : α) : (t.insert i a).Covers n := fun j hj => by
  rw [get?_insert]
  split
  · exact ⟨a, rfl⟩
  · exact h j hj

/-- A new key that follows on. -/
theorem insert_succ (h : t.Covers n) (a : α) : (t.insert n a).Covers (n + 1) := fun j hj => by
  rw [get?_insert]
  split
  · exact ⟨a, rfl⟩
  · exact h j (by omega)

theorem replace (h : t.Covers n) (hr : t.replace i a = .ok t') : t'.Covers n := by
  obtain ⟨-, rfl⟩ := replace_eq_ok.1 hr
  exact h.insert i a

theorem truncate (h : t.Covers n) {k : Nat} (hk : k ≤ n) : (t.truncate k).Covers k :=
  fun j hj => by
    rw [get?_truncate, if_pos hj]
    exact h j (Nat.lt_of_lt_of_le hj hk)

end Covers

/-- The keys are the numbers below `n`. -/
def Spans (t : SparseTable α) (n : Nat) : Prop := ∀ i, (t.get? i).isSome = true ↔ i < n

namespace Spans

variable {n : Nat}

theorem lt (h : t.Spans n) (hi : t.get? i = some a) : i < n :=
  (h i).1 (Option.isSome_of_eq_some hi)

theorem insert (h : t.Spans n) (hi : i < n) (a : α) : (t.insert i a).Spans n := fun j => by
  rw [get?_insert]
  split
  next he => exact iff_of_true Option.isSome_some (he ▸ hi)
  next => exact h j

/-- A new key that follows on. -/
theorem insert_succ (h : t.Spans n) (a : α) : (t.insert n a).Spans (n + 1) := fun j => by
  rw [get?_insert]
  split
  next he => exact iff_of_true Option.isSome_some (by omega)
  next hne =>
      rw [h j]
      omega

theorem map (h : t.Spans n) (f : α → β) : (t.map f).Spans n := fun j => by
  rw [get?_map, Option.isSome_map]
  exact h j

theorem truncate (h : t.Spans n) (k : Nat) : (t.truncate k).Spans (min k n) := fun j => by
  rw [get?_truncate]
  split
  next hlt =>
      rw [h j]
      omega
  next hle => exact iff_of_false (by simp) (by omega)

end Spans

theorem mem_entries : (i, a) ∈ t.entries ↔ t.get? i = some a := by
  rw [get?_eq_some, ← Array.getElem?_toList, entries, List.mem_filterMap]
  constructor
  · rintro ⟨⟨slot, k⟩, hk, h⟩
    obtain ⟨b, rfl, hb⟩ := Option.map_eq_some_iff.1 h
    obtain ⟨rfl, rfl⟩ := Prod.mk.inj hb
    have := List.mem_zipIdx_iff_getElem?.1 hk
    simpa using this
  · intro h
    exact ⟨(some a, i), List.mem_zipIdx_iff_getElem?.2 (by simpa using h), rfl⟩

/-- Entries are listed in ascending order of their keys. -/
theorem pairwise_entries (t : SparseTable α) : t.entries.Pairwise fun e e' => e.1 < e'.1 := by
  have hkeys : (t.slots.toList.zipIdx.map Prod.snd).Pairwise (· < ·) := by
    rw [List.zipIdx_map_snd]
    exact List.pairwise_lt_range'
  refine List.Pairwise.filterMap _ (fun x y hlt e he e' he' => ?_) (List.pairwise_map.1 hkeys)
  obtain ⟨-, -, rfl⟩ := Option.map_eq_some_iff.1 he
  obtain ⟨-, -, rfl⟩ := Option.map_eq_some_iff.1 he'
  exact hlt

end SparseTable

end CardSat
