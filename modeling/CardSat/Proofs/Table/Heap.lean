import CardSat.Table.Heap
import CardSat.Proofs.List
import CardSat.Proofs.Table.Sparse

set_option autoImplicit false

/-! # The heap never loses a key

A key that `contains` knows stands in the heap (`VarHeap.Listed`). Sifting permutes the heap and
learns the places of keys that stand there (`VarHeap.Sifted`); so adding a key that is known already
may be skipped, and removing the root removes nothing else.

Nothing is said about the order here. A heap that is out of order still holds its keys, and for the
search it is enough that no variable is lost. That the table of places is right as well is in
`Proofs.Table.Heap.Places`, and that the order holds in `Proofs.Table.Heap.Order`; the three are
shown one on top of the other, with the same swaps.
-/

namespace CardSat

namespace VarHeap

variable {before : Var → Var → Bool} {h h' : VarHeap} {i : Nat} {v : Var}

/-- The known keys stand in the heap. -/
def Listed (h : VarHeap) : Prop := ∀ v, h.contains v = true → v ∈ h.items.toList

/-- A heap after sifting. -/
structure Sifted (h h' : VarHeap) : Prop where
  perm : h'.items.toList.Perm h.items.toList
  known : ∀ v, h'.contains v = true → h.contains v = true ∨ v ∈ h.items.toList

theorem Sifted.refl (h : VarHeap) : h.Sifted h := ⟨List.Perm.refl _, fun _ => Or.inl⟩

theorem Sifted.trans {h'' : VarHeap} (a : h.Sifted h') (b : h'.Sifted h'') : h.Sifted h'' where
  perm := b.perm.trans a.perm
  known v hv := by
    rcases b.known v hv with hv | hv
    · exact a.known v hv
    · exact Or.inr (a.perm.mem_iff.1 hv)

theorem Sifted.listed (s : h.Sifted h') (hl : h.Listed) : h'.Listed := by
  intro v hv
  rw [s.perm.mem_iff]
  rcases s.known v hv with hv | hv
  · exact hl v hv
  · exact hv

theorem listed_empty : empty.Listed := by
  intro v hv
  simp [contains, SparseTable.contains, empty] at hv

theorem contains_insert_place {places : SparseTable Nat} {items : Array Var} {u : Var} {k : Nat} :
    (⟨items, places.insert u.index k⟩ : VarHeap).contains v = true ↔
      v = u ∨ (⟨items, places⟩ : VarHeap).contains v = true := by
  have hvu : v.index = u.index ↔ v = u := by
    cases v; cases u
    simp
  simp only [contains, SparseTable.contains, SparseTable.get?_insert]
  split
  next he => simp [hvu.1 he]
  next he => simp [mt hvu.2 he]

/-! ## Sifting -/

theorem sifted_settle (h : VarHeap) (i : Nat) : h.Sifted (h.settle i) := by
  unfold settle
  split
  next v hv =>
      refine ⟨List.Perm.refl _, fun u hu => ?_⟩
      rcases contains_insert_place.1 hu with rfl | hu
      · exact Or.inr (by rw [← Array.getElem?_toList] at hv; exact List.mem_of_getElem? hv)
      · exact Or.inl hu
  next => exact .refl h

/-- One step of a sift: two keys change places, and the place of one is written down. -/
theorem sifted_swap (h : VarHeap) {i j : Nat} (hi : i < h.items.size) (hj : j < h.items.size)
    (k m : Nat) (hk : k < h.items.size) :
    h.Sifted ⟨h.items.swap i j hi hj, h.places.insert h.items[k].index m⟩ where
  perm := (Array.swap_perm hi hj).toList
  known v hv := by
    rcases contains_insert_place.1 hv with rfl | hv
    · exact Or.inr (by simp)
    · exact Or.inl hv

theorem sifted_siftUp (before : Var → Var → Bool) (h : VarHeap) (i : Nat) :
    h.Sifted (siftUp before h i) := by
  induction h, i using siftUp.induct before with
  | case1 h i hi hp parent hb ih =>
      rw [siftUp, dif_pos hi]
      simp only
      rw [if_pos hb]
      exact (sifted_swap h hi.2 hp _ i hp).trans ih
  | case2 h i hi hp parent hb =>
      rw [siftUp, dif_pos hi]
      simp only
      rw [if_neg hb]
      exact sifted_settle h i
  | case3 h i hi =>
      rw [siftUp, dif_neg hi]
      exact sifted_settle h i

theorem sifted_siftDown (before : Var → Var → Bool) (h : VarHeap) (i : Nat) :
    h.Sifted (siftDown before h i) := by
  induction h, i using siftDown.induct before with
  | case1 h i hi c hc hlt child hb ih =>
      rw [siftDown, dif_pos hi]
      simp only
      rw [if_pos hb]
      exact (sifted_swap h hc (Nat.lt_trans hlt hc) c i hc).trans ih
  | case2 h i hi c hc hlt child hb =>
      rw [siftDown, dif_pos hi]
      simp only
      rw [if_neg hb]
      exact sifted_settle h i
  | case3 h i hi =>
      rw [siftDown, dif_neg hi]
      exact sifted_settle h i

theorem sifted_siftAll (before : Var → Var → Bool) (n : Nat) (h : VarHeap) :
    h.Sifted (siftAll before n h) := by
  induction n generalizing h with
  | zero => exact .refl h
  | succ n ih => exact (sifted_siftDown before h n).trans (ih _)

theorem sifted_update (before : Var → Var → Bool) (h : VarHeap) (v : Var) :
    h.Sifted (h.update before v).2 := by
  unfold update
  split
  · exact .refl h
  · dsimp only
    split
    · exact sifted_siftDown before h _
    · exact (sifted_siftDown before h _).trans (sifted_siftUp before _ _)

/-! ## The operations -/

theorem mem_insert (hl : h.Listed) (u : Var) :
    u ∈ (h.insert before v).2.items.toList ↔ u = v ∨ u ∈ h.items.toList := by
  unfold insert
  split
  next hv =>
      constructor
      · exact Or.inr
      · rintro (rfl | hu)
        · exact hl u hv
        · exact hu
  next =>
      rw [(sifted_siftUp before _ _).perm.mem_iff]
      simp only [Array.toList_push, List.mem_append, List.mem_singleton]
      exact Or.comm

theorem listed_insert (hl : h.Listed) : (h.insert before v).2.Listed := by
  unfold insert
  split
  · exact hl
  · refine (sifted_siftUp before _ _).listed fun u hu => ?_
    simpa using Or.inl (hl u hu)

theorem pop_eq_none {h' : VarHeap} (hp : h.pop before = (none, h')) :
    h' = h ∧ h.items.toList = [] := by
  unfold pop at hp
  split at hp
  next hnone =>
      refine ⟨(Prod.mk.inj hp).2.symm, ?_⟩
      rw [← Array.getElem?_toList] at hnone
      cases hi : h.items.toList with
      | nil => rfl
      | cons a as => simp [hi] at hnone
  next => cases (Prod.mk.inj hp).1

/-- The heap after the last key took the place of the root, before it is sifted down. -/
def dropRoot (h : VarHeap) (root : Var) : VarHeap :=
  ⟨(h.items.setIfInBounds 0 (h.items.back?.getD root)).pop, h.places.erase root.index⟩

theorem siftDown_of_isEmpty (he : h.isEmpty = true) (i : Nat) : siftDown before h i = h := by
  have hsize : h.items.size = 0 := by simpa [isEmpty] using he
  rw [siftDown, dif_neg (by omega), settle, Array.getElem?_eq_none (by omega)]

theorem pop_of_root {root : Var} (hroot : h.items[0]? = some root) :
    h.pop before = (some root, siftDown before (h.dropRoot root) 0) := by
  unfold pop
  rw [hroot]
  simp only
  split
  next he => rw [dropRoot, siftDown_of_isEmpty he]
  next => rfl

theorem pop_eq_some_iff {h' : VarHeap} : h.pop before = (some v, h') ↔
    h.items[0]? = some v ∧ h' = siftDown before (h.dropRoot v) 0 := by
  constructor
  · intro hp
    cases hroot : h.items[0]? with
    | none =>
        rw [pop, hroot] at hp
        cases (Prod.mk.inj hp).1
    | some root =>
        rw [pop_of_root hroot] at hp
        obtain ⟨hv, rfl⟩ := Prod.mk.inj hp
        obtain rfl := Option.some.inj hv
        exact ⟨rfl, rfl⟩
  · rintro ⟨hroot, rfl⟩
    exact pop_of_root hroot

theorem perm_dropRoot {root : Var} (hroot : h.items[0]? = some root) :
    h.items.toList.Perm (root :: (h.dropRoot root).items.toList) := by
  rw [← Array.getElem?_toList] at hroot
  simp only [dropRoot, Array.toList_pop, Array.toList_setIfInBounds, ← Array.getLast?_toList]
  exact perm_last_to_front hroot

theorem listed_dropRoot {root : Var} (hl : h.Listed) (hroot : h.items[0]? = some root) :
    (h.dropRoot root).Listed := by
  intro u hu
  simp only [dropRoot, contains, SparseTable.contains, SparseTable.get?_erase] at hu
  split at hu
  next => cases hu
  next hne =>
      have hmem := hl u hu
      rw [(perm_dropRoot hroot).mem_iff] at hmem
      rcases List.mem_cons.1 hmem with rfl | hmem
      · exact absurd rfl hne
      · exact hmem

/-- Removing the root removes one key. -/
theorem pop_eq_some {h' : VarHeap} (hl : h.Listed) (hp : h.pop before = (some v, h')) :
    h'.Listed ∧ h.items.toList.Perm (v :: h'.items.toList) := by
  obtain ⟨hroot, rfl⟩ := pop_eq_some_iff.1 hp
  have hs := sifted_siftDown before (h.dropRoot v) 0
  exact ⟨hs.listed (listed_dropRoot hl hroot),
    (perm_dropRoot hroot).trans (List.Perm.cons _ hs.perm.symm)⟩

theorem listed_ofArray (before : Var → Var → Bool) (keys : Array Var) :
    (ofArray before keys).Listed :=
  (sifted_siftAll before _ _).listed fun v hv => by
    simp [contains, SparseTable.contains] at hv

theorem mem_ofArray (before : Var → Var → Bool) (keys : Array Var) (v : Var) :
    v ∈ (ofArray before keys).items.toList ↔ v ∈ keys.toList :=
  (sifted_siftAll before _ _).perm.mem_iff

end VarHeap

end CardSat
