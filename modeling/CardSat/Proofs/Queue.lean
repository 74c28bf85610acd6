import Mathlib.Data.Nat.Basic
import CardSat.Proofs.Table.Heap.Order

set_option autoImplicit false

/-! # The heap is a priority queue

`VarHeap.Reached before h`: the operations build the heap `h`, whose keys are ordered by `before` at
present. The order may change while the heap is at rest, in two ways: some pairs become ties, or one
key takes another priority and is put back in place. The places and the order survive each operation
(`stands_of_reached`), and so every answer is the one a priority queue gives (`queue_of_reached`).

The order is not part of the heap. It is given to each operation, as it is at that time, and the
heap has no way to notice that it has changed. The two ways in which it may change are those in
which activities change: scaling all of them may make two of them equal but turns none around, and a
bump raises one of them, after which the key is updated.
-/

namespace CardSat

namespace VarHeap

variable {before : Var → Var → Bool} {h h' : VarHeap} {v : Var}

/-- The heaps that operations build, with the order that their keys have at present. -/
inductive Reached : (Var → Var → Bool) → VarHeap → Prop
  | empty {before : Var → Var → Bool} (hw : StrictWeak before) : Reached before empty
  | ofArray {before : Var → Var → Bool} {keys : Array Var} (hw : StrictWeak before)
      (hd : keys.toList.Nodup) : Reached before (ofArray before keys)
  | insert {before : Var → Var → Bool} {h : VarHeap} (hr : Reached before h) (v : Var) :
      Reached before (h.insert before v).2
  | pop {before : Var → Var → Bool} {h : VarHeap} (hr : Reached before h) :
      Reached before (h.pop before).2
  | update {before before' : Var → Var → Bool} {h : VarHeap} {v : Var} (hr : Reached before h)
      (hw : StrictWeak before') (hm : h.Moved before before' v) :
      Reached before' (h.update before' v).2
  | relax {before before' : Var → Var → Bool} {h : VarHeap} (hr : Reached before h)
      (hw : StrictWeak before') (hm : ∀ a ∈ h.items.toList, ∀ b ∈ h.items.toList,
        before' a b = true → before a b = true) : Reached before' h

/-- What a priority queue promises: where its keys stand, and what each operation answers and
leaves. -/
structure Queue (before : Var → Var → Bool) (h : VarHeap) : Prop where
  placed : h.Placed
  nodup : h.items.toList.Nodup
  ordered : h.Ordered before
  insert : ∀ v, (h.insert before v).1 = decide (v ∉ h.items.toList) ∧
    ∀ u, u ∈ (h.insert before v).2.items.toList ↔ u = v ∨ u ∈ h.items.toList
  update : ∀ before' v, (h.update before' v).1 = decide (v ∈ h.items.toList) ∧
    (h.update before' v).2.items.toList.Perm h.items.toList
  pop_none : h.pop before = (none, h) ↔ h.items = #[]
  pop_some : ∀ v h', h.pop before = (some v, h') →
    v ∈ h.items.toList ∧ (∀ u ∈ h.items.toList, before u v = false) ∧
      h.items.toList.Perm (v :: h'.items.toList)
  ofArray : ∀ keys : Array Var, (ofArray before keys).items.toList.Perm keys.toList

/-! ## The answers -/

theorem answer_insert (hp : h.Placed) :
    (h.insert before v).1 = decide (v ∉ h.items.toList) := by
  unfold VarHeap.insert
  split
  next hv => simp [hp.contains_iff.1 hv]
  next hv => simp [mt hp.contains_iff.2 hv]

theorem answer_update (hp : h.Placed) :
    (h.update before v).1 = decide (v ∈ h.items.toList) := by
  unfold VarHeap.update
  cases hi : h.places.get? v.index with
  | none =>
      have hv : ¬h.contains v = true := by simp [contains, SparseTable.contains, hi]
      simp [mt hp.contains_iff.2 hv]
  | some i =>
      have hv := hp.contains_iff.1 (SparseTable.contains_eq_true.2 ⟨i, hi⟩)
      dsimp only
      split
      · simp [hv]
      · simp [hv]

theorem pop_eq_none_iff : h.pop before = (none, h) ↔ h.items = #[] := by
  constructor
  · intro hp
    simpa using (pop_eq_none hp).2
  · intro he
    simp [VarHeap.pop, he]

/-! ## A run of operations -/

/-- The places and the order are right after every run. -/
theorem stands_of_reached (hr : Reached before h) :
    StrictWeak before ∧ h.Placed ∧ h.Ordered before := by
  induction hr with
  | empty hw => exact ⟨hw, placed_empty, ordered_empty⟩
  | ofArray hw hd => exact ⟨hw, placed_ofArray hd, ordered_ofArray hw _⟩
  | insert _ v ih =>
      obtain ⟨hw, hp, ho⟩ := ih
      exact ⟨hw, placed_insert hp, ordered_insert hw ho⟩
  | pop _ ih =>
      obtain ⟨hw, hp, ho⟩ := ih
      exact ⟨hw, placed_pop hp, ordered_pop hw ho⟩
  | update _ hw' hm ih =>
      obtain ⟨hw, hp, ho⟩ := ih
      exact ⟨hw', placed_update hp, ordered_update hw hw' hp ho hm⟩
  | relax _ hw' hm ih =>
      obtain ⟨-, hp, ho⟩ := ih
      exact ⟨hw', hp, ho.relax hm⟩

/-- A heap that operations build, while the order of its keys changes only as they are told, is a
priority queue: it knows where each of its keys stands, holds no key twice and no child before
its parent, answers whether a key is there, and gives up a key that no other one is before. -/
theorem queue_of_reached (hr : Reached before h) : Queue before h := by
  obtain ⟨hw, hp, ho⟩ := stands_of_reached hr
  refine ⟨hp, hp.nodup, ho, fun v => ⟨answer_insert hp, mem_insert hp.listed⟩,
    fun before' v => ⟨answer_update hp, (sifted_update before' h v).perm⟩, pop_eq_none_iff,
    fun v h' hpop => ?_, fun keys => (sifted_siftAll before _ _).perm⟩
  have hroot := (pop_eq_some_iff.1 hpop).1
  have hmem : v ∈ h.items.toList := by
    rw [← Array.getElem?_toList] at hroot
    exact List.mem_of_getElem? hroot
  exact ⟨hmem, fun u hu => ho.not_before_root hw hroot hu, (pop_eq_some hp.listed hpop).2⟩

/-- The key with the higher number in the list is before the other one. -/
def byPriority (priorities : List Nat) (u v : Var) : Bool :=
  decide (priorities.getD v.index 0 < priorities.getD u.index 0)

theorem strictWeak_byPriority (priorities : List Nat) : StrictWeak (byPriority priorities) :=
  strictWeak_of_rank (fun v => priorities.getD v.index 0) fun u v => by simp [byPriority]

/-- Four keys are added with the priorities 3, 9, 1 and 7. Then the first one rises, and the
second one, which stands at the root, sinks. -/
theorem queue_after_update :
    ∃ h, Reached (byPriority [8, 0, 1, 7]) h ∧ h.items = #[⟨0⟩, ⟨3⟩, ⟨2⟩, ⟨1⟩] ∧
      (h.pop (byPriority [8, 0, 1, 7])).1 = some ⟨0⟩ ∧ Queue (byPriority [8, 0, 1, 7]) h := by
  have hadded := ((((Reached.empty (strictWeak_byPriority [3, 9, 1, 7])).insert ⟨0⟩).insert
    ⟨1⟩).insert ⟨2⟩).insert ⟨3⟩
  have hrisen := hadded.update (v := ⟨0⟩) (strictWeak_byPriority [8, 9, 1, 7])
    (by unfold Moved; decide +kernel)
  have hsunk := hrisen.update (v := ⟨1⟩) (strictWeak_byPriority [8, 0, 1, 7])
    (by unfold Moved; decide +kernel)
  exact ⟨_, hsunk, by decide +kernel, by decide +kernel, queue_of_reached hsunk⟩

end VarHeap

end CardSat
