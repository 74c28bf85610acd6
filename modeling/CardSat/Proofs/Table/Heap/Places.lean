import Mathlib.Data.List.Perm.Subperm
import Mathlib.Logic.Equiv.Basic
import CardSat.Proofs.Table.Heap

set_option autoImplicit false

/-! # The heap knows where its keys stand

`VarHeap.Placed`: the table of places answers exactly the position of each key, so that no key
stands twice. A sift breaks this at one position, the one of the key on its way: the places
are right on the set of the other positions (`VarHeap.PlacedOn`), each swap hands the gap on,
and `settle` closes it. While a heap is built from an array the places are right from the
position that is sifted on.
-/

namespace CardSat

namespace VarHeap

variable {before : Var → Var → Bool} {h h' : VarHeap} {i j : Nat} {u v : Var}

/-- The place of each key is written down, and nothing else is. -/
def Placed (h : VarHeap) : Prop :=
  ∀ v i, h.places.get? v.index = some i ↔ h.items[i]? = some v

/-- No key stands twice, only keys have places, and the places of the keys at the positions
in `P` are right. -/
structure PlacedOn (P : Nat → Prop) (h : VarHeap) : Prop where
  once : ∀ {i j : Nat} {v : Var}, h.items[i]? = some v → h.items[j]? = some v → i = j
  written : ∀ {i : Nat} {v : Var}, P i → h.items[i]? = some v → h.places.get? v.index = some i
  listed : h.Listed

theorem mem_of_getElem? (hi : h.items[i]? = some v) : v ∈ h.items.toList := by
  rw [← Array.getElem?_toList] at hi
  exact List.mem_of_getElem? hi

theorem Placed.contains_iff (hp : h.Placed) : h.contains v = true ↔ v ∈ h.items.toList := by
  rw [contains, SparseTable.contains_eq_true, List.mem_iff_getElem?]
  simp only [Array.getElem?_toList, hp v]

theorem Placed.once (hp : h.Placed) (hi : h.items[i]? = some v) (hj : h.items[j]? = some v) :
    i = j :=
  Option.some.inj (((hp v i).2 hi).symm.trans ((hp v j).2 hj))

theorem Placed.listed (hp : h.Placed) : h.Listed := fun _ => hp.contains_iff.1

theorem Placed.nodup (hp : h.Placed) : h.items.toList.Nodup := by
  rw [List.nodup_iff_getElem?_ne_getElem?]
  intro i j hij hj heq
  obtain ⟨v, hv⟩ : ∃ v, h.items.toList[j]? = some v := ⟨_, List.getElem?_eq_getElem hj⟩
  rw [hv] at heq
  simp only [Array.getElem?_toList] at hv heq
  have := hp.once heq hv
  omega

/-- There are no more keys than numbers for them. -/
theorem Placed.size_le {n : Nat} (hp : h.Placed) (hlt : ∀ v ∈ h.items.toList, v.index < n) :
    h.size ≤ n := by
  have hdistinct : (h.items.toList.map Var.index).Nodup :=
    hp.nodup.map fun _ _ => Var.index_inj.1
  have hsub : h.items.toList.map Var.index ⊆ List.range n := fun i hi => by
    obtain ⟨v, hv, rfl⟩ := List.mem_map.1 hi
    exact List.mem_range.2 (hlt v hv)
  have hlength := (List.subperm_of_subset hdistinct hsub).length_le
  rwa [List.length_map, List.length_range] at hlength

theorem Placed.placedOn (hp : h.Placed) (P : Nat → Prop) : h.PlacedOn P where
  once := hp.once
  written _ := (hp _ _).2
  listed := hp.listed

theorem PlacedOn.mono {P Q : Nat → Prop} (hp : h.PlacedOn P) (hQ : ∀ i, Q i → P i) :
    h.PlacedOn Q where
  once := hp.once
  written hi := hp.written (hQ _ hi)
  listed := hp.listed

/-- Places that are right everywhere are all the places there are. -/
theorem PlacedOn.placed {P : Nat → Prop} (hp : h.PlacedOn P) (hP : ∀ i, P i) : h.Placed := by
  intro v i
  refine ⟨fun hi => ?_, hp.written (hP i)⟩
  have hmem := hp.listed v (SparseTable.contains_eq_true.2 ⟨i, hi⟩)
  obtain ⟨k, hk⟩ := List.mem_iff_getElem?.1 hmem
  rw [Array.getElem?_toList] at hk
  obtain rfl := Option.some.inj ((hp.written (hP k) hk).symm.trans hi)
  exact hk

/-! ## Sifting -/

section Sifting

variable {P : Nat → Prop}

theorem PlacedOn.settle (hp : h.PlacedOn fun j => P j ∧ j ≠ i) : (h.settle i).PlacedOn P := by
  have hlisted : (h.settle i).Listed := (sifted_settle h i).listed hp.listed
  unfold VarHeap.settle at hlisted ⊢
  cases hi : h.items[i]? with
  | none =>
      refine ⟨hp.once, fun {j v} hj hv => hp.written ⟨hj, ?_⟩ hv, hp.listed⟩
      rintro rfl
      rw [hi] at hv
      cases hv
  | some u =>
      rw [hi] at hlisted
      refine ⟨hp.once, fun {j v} hj hv => ?_, hlisted⟩
      by_cases hvu : v = u
      · subst hvu
        simp only [SparseTable.get?_insert, if_true]
        rw [hp.once hi hv]
      · have hji : j ≠ i := by
          rintro rfl
          exact hvu (Option.some.inj (hv.symm.trans hi))
        simp only [SparseTable.get?_insert, Var.index_inj, hvu, if_false]
        exact hp.written ⟨hj, hji⟩ hv

theorem getElem?_swap_perm {items : Array Var} (hi : i < items.size) (hj : j < items.size)
    (k : Nat) : (items.swap i j hi hj)[k]? = items[Equiv.swap i j k]? := by
  rw [Array.getElem?_swap]
  by_cases hki : k = i
  · subst hki
    rw [Equiv.swap_apply_left]
    by_cases hkj : j = k
    · simp [hkj, hi]
    · simp [hkj, hj]
  · by_cases hkj : k = j
    · subst hkj
      simp [hi]
    · simp [Equiv.swap_apply_of_ne_of_ne hki hkj, Ne.symm hki, Ne.symm hkj]

/-- One step of a sift: the key at `j` goes to the gap at `i`, and the gap to `j`. -/
theorem PlacedOn.swap (hp : h.PlacedOn fun k => P k ∧ k ≠ i) (hi : i < h.items.size)
    (hj : j < h.items.size) :
    PlacedOn (fun k => P k ∧ k ≠ j)
      ⟨h.items.swap i j hi hj, h.places.insert h.items[j].index i⟩ where
  once {k l v} hk hl := by
    rw [getElem?_swap_perm] at hk hl
    exact (Equiv.swap i j).injective (hp.once hk hl)
  written {k v} hk hv := by
    rw [getElem?_swap_perm] at hv
    by_cases hki : k = i
    · subst hki
      rw [Equiv.swap_apply_left, Array.getElem?_eq_getElem hj] at hv
      obtain rfl := Option.some.inj hv
      simp [SparseTable.get?_insert]
    · rw [Equiv.swap_apply_of_ne_of_ne hki hk.2] at hv
      -- the key at `k` stays where it is, and it is not the one that moved
      have hne : v ≠ h.items[j] := by
        rintro rfl
        exact hk.2 (hp.once hv (Array.getElem?_eq_getElem hj))
      simp only [SparseTable.get?_insert, Var.index_inj, hne, if_false]
      exact hp.written ⟨hk.1, hki⟩ hv
  listed := (sifted_swap h hi hj j i hj).listed hp.listed

theorem PlacedOn.siftUp (hp : h.PlacedOn fun j => P j ∧ j ≠ i) :
    (siftUp before h i).PlacedOn P := by
  induction h, i using siftUp.induct before with
  | case1 h i hi hparent parent hb ih =>
      rw [VarHeap.siftUp, dif_pos hi]
      simp only
      rw [if_pos hb]
      exact ih (hp.swap hi.2 hparent)
  | case2 h i hi hparent parent hb =>
      rw [VarHeap.siftUp, dif_pos hi]
      simp only
      rw [if_neg hb]
      exact hp.settle
  | case3 h i hi =>
      rw [VarHeap.siftUp, dif_neg hi]
      exact hp.settle

theorem PlacedOn.siftDown (hp : h.PlacedOn fun j => P j ∧ j ≠ i) :
    (siftDown before h i).PlacedOn P := by
  induction h, i using siftDown.induct before with
  | case1 h i hi c hc hlt child hb ih =>
      rw [VarHeap.siftDown, dif_pos hi]
      simp only
      rw [if_pos hb, Array.swap_comm]
      rw [Array.swap_comm] at ih
      exact ih (hp.swap (Nat.lt_trans hlt hc) hc)
  | case2 h i hi c hc hlt child hb =>
      rw [VarHeap.siftDown, dif_pos hi]
      simp only
      rw [if_neg hb]
      exact hp.settle
  | case3 h i hi =>
      rw [VarHeap.siftDown, dif_neg hi]
      exact hp.settle

end Sifting

theorem PlacedOn.siftAll {n : Nat} (hp : h.PlacedOn (n ≤ ·)) : (siftAll before n h).Placed := by
  induction n generalizing h with
  | zero => exact hp.placed fun i => Nat.zero_le i
  | succ n ih => exact ih (PlacedOn.siftDown (hp.mono fun i hi => by omega))

/-! ## The operations -/

theorem placed_empty : empty.Placed := by
  intro v i
  simp [empty]

theorem Placed.siftUp (hp : h.Placed) (i : Nat) : (siftUp before h i).Placed :=
  (PlacedOn.siftUp (hp.placedOn _)).placed fun _ => trivial

theorem Placed.siftDown (hp : h.Placed) (i : Nat) : (siftDown before h i).Placed :=
  (PlacedOn.siftDown (hp.placedOn _)).placed fun _ => trivial

theorem placed_insert (hp : h.Placed) : (h.insert before v).2.Placed := by
  unfold insert
  split
  next => exact hp
  next hv =>
      -- the new key stands behind the others, and its place is the one that is missing
      have hv : v ∉ h.items.toList := mt hp.contains_iff.2 hv
      have hlast : ∀ {k u}, (h.items.push v)[k]? = some u →
          k = h.items.size ∧ u = v ∨ k ≠ h.items.size ∧ u ≠ v ∧ h.items[k]? = some u := by
        intro k u hk
        rw [Array.getElem?_push] at hk
        split at hk
        next hlast => exact Or.inl ⟨hlast, (Option.some.inj hk).symm⟩
        next hne =>
            refine Or.inr ⟨hne, ?_, hk⟩
            rintro rfl
            rw [← Array.getElem?_toList] at hk
            exact hv (List.mem_of_getElem? hk)
      refine (PlacedOn.siftUp (P := fun _ => True) ⟨?_, ?_, ?_⟩).placed fun _ => trivial
      · intro i j u hi hj
        rcases hlast hi with ⟨rfl, rfl⟩ | ⟨-, hu, hi⟩
        · rcases hlast hj with ⟨rfl, -⟩ | ⟨-, hu, -⟩
          · rfl
          · exact absurd rfl hu
        · rcases hlast hj with ⟨-, rfl⟩ | ⟨-, -, hj⟩
          · exact absurd rfl hu
          · exact hp.once hi hj
      · intro i u hi hu
        rcases hlast hu with ⟨rfl, -⟩ | ⟨-, -, hu⟩
        · exact absurd rfl hi.2
        · exact (hp u i).2 hu
      · intro u hu
        simpa using Or.inl (hp.listed u hu)

theorem placed_update (hp : h.Placed) : (h.update before v).2.Placed := by
  unfold update
  split
  next => exact hp
  next i hi =>
      dsimp only
      split
      · exact hp.siftDown i
      · exact (hp.siftDown i).siftUp _

theorem getElem?_dropRoot {root : Var} (hi : i ≠ 0) (hv : (h.dropRoot root).items[i]? = some v) :
    h.items[i]? = some v := by
  rw [dropRoot, Array.getElem?_pop] at hv
  split at hv
  next => rwa [Array.getElem?_setIfInBounds_ne (Ne.symm hi)] at hv
  next => cases hv

theorem placedOn_dropRoot {root : Var} (hp : h.Placed) (hroot : h.items[0]? = some root) :
    (h.dropRoot root).PlacedOn (· ≠ 0) where
  once {i j v} hi hj := by
    have hnodup := List.nodup_cons.1 ((perm_dropRoot hroot).nodup_iff.1 hp.nodup)
    simp only [← Array.getElem?_toList] at hi hj
    exact (List.getElem?_inj (List.getElem?_eq_some_iff.1 hi).1 hnodup.2).1 (hi.trans hj.symm)
  written {i v} hi hv := by
    have hvi := getElem?_dropRoot hi hv
    have hne : v ≠ root := by
      rintro rfl
      exact hi (hp.once hvi hroot)
    rw [dropRoot, SparseTable.get?_erase, if_neg (mt Var.index_inj.1 hne)]
    exact (hp v i).2 hvi
  listed := listed_dropRoot hp.listed hroot

theorem placed_pop (hp : h.Placed) : (h.pop before).2.Placed := by
  cases hroot : h.items[0]? with
  | none => simpa only [pop, hroot] using hp
  | some root =>
      rw [pop_of_root hroot]
      have hgap := placedOn_dropRoot hp hroot
      exact (PlacedOn.siftDown (hgap.mono fun i hi => hi.2)).placed fun _ => trivial

theorem placed_ofArray {keys : Array Var} (hd : keys.toList.Nodup) :
    (ofArray before keys).Placed := by
  refine PlacedOn.siftAll ⟨fun {i j v} hi hj => ?_, fun {i v} hi hv => ?_, fun v hv => ?_⟩
  · simp only [← Array.getElem?_toList] at hi hj
    exact (List.getElem?_inj (List.getElem?_eq_some_iff.1 hi).1 hd).1 (hi.trans hj.symm)
  · rw [Array.getElem?_eq_none hi] at hv
    cases hv
  · simp [contains, SparseTable.contains] at hv

end VarHeap

end CardSat
