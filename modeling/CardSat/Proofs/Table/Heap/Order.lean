import Mathlib.Order.Lattice
import CardSat.Proofs.Table.Heap.Places

set_option autoImplicit false

/-! # The heap order

`VarHeap.Ordered`: no key is before the one at its parent's position. It is lost at one position
while a key is on its way, and the other pairs are joined across that position: a child of the gap
is not before the gap's parent. A rising key also has its children behind it (`Rising`), a sinking
key is behind its parent (`Sinking`), and a key whose priority changed may be out of place in both
directions (`Loose`). Each swap of a sift hands its invariant on to the next position, and the sift
stops where the order holds again. Sinking keeps to the positions from `m` on, which is the order
that exists while a heap is built.

## Which order

The relation `before` is a strict weak order: keys may be tied, and ties are transitive. A weaker
order, with more ties, keeps a heap ordered (`Ordered.relax`), so scaling activities does no harm.
What the root is then is not one key but any of those that no other is before.
-/

namespace CardSat

namespace VarHeap

variable {before before' : Var → Var → Bool} {h : VarHeap} {items : Array Var}
variable {c i m p q : Nat} {u v w : Var}

/-! ## Strict weak orders -/

/-- Keys are ranked by `before`, and keys of one rank do not differ in what they are before. -/
abbrev StrictWeak (before : Var → Var → Bool) : Prop :=
  IsStrictWeakOrder Var fun u v => before u v = true

theorem StrictWeak.irrefl (hw : StrictWeak before) (v : Var) : before v v = false :=
  Bool.eq_false_iff.2 (hw.toIrrefl.irrefl v)

theorem StrictWeak.asymm (hw : StrictWeak before) (huv : before u v = true) :
    before v u = false := by
  refine Bool.eq_false_iff.2 fun hvu => ?_
  exact hw.toIrrefl.irrefl u (hw.toIsTrans.trans u v u huv hvu)

theorem StrictWeak.not_trans (hw : StrictWeak before) (huv : before u v = false)
    (hvw : before v w = false) : before u w = false := by
  rw [← Bool.not_eq_true] at *
  intro huw
  have hvu : ¬before v u = true := fun h => hvw (hw.toIsTrans.trans v u w h huw)
  have hwv : ¬before w v = true := fun h => huv (hw.toIsTrans.trans u w v huw h)
  exact (hw.incomp_trans u v w ⟨huv, hvu⟩ ⟨hvw, hwv⟩).1 huw

/-- Keys that are compared by their ranks in a linear order. -/
theorem strictWeak_of_rank {α : Type} [LinearOrder α] (rank : Var → α)
    (hb : ∀ u v, before u v = true ↔ rank v < rank u) : StrictWeak before where
  irrefl v := by
    rw [hb]
    exact lt_irrefl _
  trans u v w huv hvw := by
    rw [hb] at *
    exact lt_trans hvw huv
  incomp_trans u v w huv hvw := by
    simp only [hb, not_lt] at *
    exact ⟨le_trans huv.1 hvw.1, le_trans hvw.2 huv.2⟩

/-! ## Pairs of positions -/

/-- Position `c` is a child of position `p`. -/
def IsChild (c p : Nat) : Prop := c = 2 * p + 1 ∨ c = 2 * p + 2

theorem isChild_parent (hi : 0 < i) : IsChild i ((i - 1) / 2) := by
  unfold IsChild
  omega

theorem IsChild.lt (hc : IsChild c p) : p < c := by
  unfold IsChild at hc
  omega

theorem IsChild.parent_eq (hc : IsChild c p) (hq : IsChild c q) : p = q := by
  unfold IsChild at hc hq
  omega

/-- The key at position `c`, if any, is not before the one at position `p`. -/
def Behind (before : Var → Var → Bool) (items : Array Var) (c p : Nat) : Prop :=
  ∀ u v, items[c]? = some u → items[p]? = some v → before u v = false

theorem behind_of_not_before (hc : c < items.size) (hp : p < items.size)
    (hb : before items[c] items[p] = false) : Behind before items c p := by
  intro u v hu hv
  rw [Array.getElem?_eq_getElem hc] at hu
  rw [Array.getElem?_eq_getElem hp] at hv
  obtain rfl := Option.some.inj hu
  obtain rfl := Option.some.inj hv
  exact hb

theorem Behind.trans (hw : StrictWeak before) (hcp : Behind before items c p)
    (hpq : Behind before items p q) (hp : p < items.size) : Behind before items c q := by
  intro u v hu hv
  have hmid := Array.getElem?_eq_getElem hp
  exact hw.not_trans (hcp u _ hu hmid) (hpq _ v hmid hv)

theorem behind_swap (hi : i < items.size) (hp : p < items.size) (c q : Nat) :
    Behind before (items.swap i p hi hp) c q ↔
      Behind before items (Equiv.swap i p c) (Equiv.swap i p q) := by
  simp only [Behind, getElem?_swap_perm]

/-- From position `m` on no child is before its parent. -/
def OrderedFrom (before : Var → Var → Bool) (m : Nat) (items : Array Var) : Prop :=
  ∀ c p, IsChild c p → m ≤ p → Behind before items c p

/-- No child is before its parent. -/
def Ordered (before : Var → Var → Bool) (h : VarHeap) : Prop :=
  ∀ c p, IsChild c p → Behind before h.items c p

theorem OrderedFrom.ordered (ho : OrderedFrom before 0 h.items) : h.Ordered before :=
  fun c p hc => ho c p hc (Nat.zero_le p)

/-- No key of an ordered heap is before the root. -/
theorem Ordered.not_before_root (hw : StrictWeak before) (ho : h.Ordered before)
    (hroot : h.items[0]? = some u) (hv : v ∈ h.items.toList) : before v u = false := by
  obtain ⟨i, hi⟩ := List.mem_iff_getElem?.1 hv
  rw [Array.getElem?_toList] at hi
  induction i using Nat.strongRecOn generalizing v with
  | _ i ih =>
    by_cases hzero : i = 0
    · subst hzero
      obtain rfl := Option.some.inj (hi.symm.trans hroot)
      exact hw.irrefl v
    · have hchild := isChild_parent (Nat.pos_of_ne_zero hzero)
      have hsize := (Array.getElem?_eq_some_iff.1 hi).1
      obtain ⟨p, hparent⟩ : ∃ p, h.items[(i - 1) / 2]? = some p :=
        ⟨_, Array.getElem?_eq_getElem (Nat.lt_trans hchild.lt hsize)⟩
      have hmem : p ∈ h.items.toList := Array.mem_toList_iff.2 (Array.mem_of_getElem? hparent)
      exact hw.not_trans (ho i _ hchild v p hi hparent) (ih _ hchild.lt hmem hparent)

/-! ## A rising key -/

/-- Only the key at position `i` may be before its parent. -/
structure Rising (before : Var → Var → Bool) (items : Array Var) (i : Nat) : Prop where
  others : ∀ c p, IsChild c p → c ≠ i → Behind before items c p
  joined : ∀ c p, IsChild c i → IsChild i p → Behind before items c p

theorem Rising.swap (hw : StrictWeak before) (hr : Rising before items i) (hc : IsChild i p)
    (hi : i < items.size) (hp : p < items.size) (hb : before items[i] items[p] = true) :
    Rising before (items.swap i p hi hp) p := by
  have hpi : Behind before items p i := behind_of_not_before hp hi (hw.asymm hb)
  have hip := Nat.ne_of_gt hc.lt
  constructor
  · intro c q hcq hcp
    rw [behind_swap]
    by_cases hci : c = i
    · subst hci
      rw [hcq.parent_eq hc, Equiv.swap_apply_left, Equiv.swap_apply_right]
      exact hpi
    · rw [Equiv.swap_apply_of_ne_of_ne hci hcp]
      by_cases hqi : q = i
      · subst hqi
        rw [Equiv.swap_apply_left]
        exact hr.joined c p hcq hc
      · by_cases hqp : q = p
        · -- the sibling of the rising key was behind the old parent, which is behind the key
          subst hqp
          rw [Equiv.swap_apply_right]
          exact (hr.others c q hcq hci).trans hw hpi hp
        · rw [Equiv.swap_apply_of_ne_of_ne hqi hqp]
          exact hr.others c q hcq hci
  -- the children of the old parent are behind it, and so is the key that takes its place
  · intro c q hcp hpq
    have hqp := Nat.ne_of_lt hpq.lt
    rw [behind_swap, Equiv.swap_apply_of_ne_of_ne (Nat.ne_of_lt (Nat.lt_trans hpq.lt hc.lt)) hqp]
    by_cases hci : c = i
    · subst hci
      rw [Equiv.swap_apply_left]
      exact hr.others p q hpq (Ne.symm hip)
    · rw [Equiv.swap_apply_of_ne_of_ne hci (Nat.ne_of_gt hcp.lt)]
      exact (hr.others c p hcp hci).trans hw (hr.others p q hpq (Ne.symm hip)) hp

theorem Rising.ordered (hr : Rising before h.items i)
    (htop : ∀ p, IsChild i p → Behind before h.items i p) : h.Ordered before := by
  intro c p hc
  by_cases hci : c = i
  · subst hci
    exact htop p hc
  · exact hr.others c p hc hci

theorem Ordered.settle (ho : h.Ordered before) (i : Nat) : (h.settle i).Ordered before := by
  unfold VarHeap.settle
  split
  · exact ho
  · exact ho

theorem Rising.siftUp (hw : StrictWeak before) (hr : Rising before h.items i) :
    (siftUp before h i).Ordered before := by
  induction h, i using siftUp.induct before with
  | case1 h i hi hp parent hb ih =>
      rw [VarHeap.siftUp, dif_pos hi]
      simp only
      rw [if_pos hb]
      exact ih (hr.swap hw (isChild_parent hi.1) hi.2 hp hb)
  | case2 h i hi hp parent hb =>
      rw [VarHeap.siftUp, dif_pos hi]
      simp only
      rw [if_neg hb]
      refine (hr.ordered fun p hc => ?_).settle i
      rw [hc.parent_eq (isChild_parent hi.1)]
      exact behind_of_not_before hi.2 hp (Bool.eq_false_iff.2 hb)
  | case3 h i hi =>
      rw [VarHeap.siftUp, dif_neg hi]
      refine (hr.ordered fun p hc u v hu => ?_).settle i
      have := (Array.getElem?_eq_some_iff.1 hu).1
      have := hc.lt
      omega

/-! ## A sinking key -/

/-- The key at position `i` may be out of place. -/
structure Loose (before : Var → Var → Bool) (m : Nat) (items : Array Var) (i : Nat) : Prop where
  others : ∀ c p, IsChild c p → m ≤ p → c ≠ i → p ≠ i → Behind before items c p
  joined : ∀ c p, IsChild c i → IsChild i p → m ≤ p → Behind before items c p

/-- Only the children of position `i` may be before it. -/
structure Sinking (before : Var → Var → Bool) (m : Nat) (items : Array Var) (i : Nat) : Prop
    extends Loose before m items i where
  above : ∀ p, IsChild i p → m ≤ p → Behind before items i p

theorem isChild_chosenChild (before : Var → Var → Bool) (items : Array Var) (i : Nat)
    (hi : 2 * i + 1 < items.size) : IsChild (chosenChild before items i hi) i := by
  unfold chosenChild IsChild
  split
  · split <;> omega
  · omega

/-- The chosen child may stand above its sibling. -/
theorem behind_chosenChild (hw : StrictWeak before) (hi : 2 * i + 1 < items.size)
    (hc : IsChild c i) : Behind before items c (chosenChild before items i hi) := by
  intro u v hu hv
  have hsize := (Array.getElem?_eq_some_iff.1 hu).1
  unfold chosenChild at hv
  split at hv
  next hr =>
      split at hv
      next hb =>
          rcases hc with rfl | rfl
          · exact behind_of_not_before hi hr (hw.asymm hb) u v hu hv
          · rw [Option.some.inj (hu.symm.trans hv)]
            exact hw.irrefl v
      next hb =>
          rcases hc with rfl | rfl
          · rw [Option.some.inj (hu.symm.trans hv)]
            exact hw.irrefl v
          · exact behind_of_not_before hr hi (Bool.eq_false_iff.2 hb) u v hu hv
  next hr =>
      rcases hc with rfl | rfl
      · rw [Option.some.inj (hu.symm.trans hv)]
        exact hw.irrefl v
      · exact absurd hsize hr

theorem Loose.swap (hw : StrictWeak before) (hl : Loose before m items i) (hm : m ≤ i)
    (hc : IsChild c i) (hi : i < items.size) (hcs : c < items.size)
    (hleast : ∀ k, IsChild k i → Behind before items k c)
    (hb : before items[c] items[i] = true) : Sinking before m (items.swap c i hcs hi) c := by
  have hci := Nat.ne_of_gt hc.lt
  refine ⟨⟨fun k q hkq hq hkc hqc => ?_, fun k q hkc hcq hq => ?_⟩, fun q hcq hq => ?_⟩
  · rw [behind_swap]
    -- the child that was moved up stands under the parent of `i`, which comes before it
    by_cases hki : k = i
    · subst hki
      rw [Equiv.swap_apply_right, Equiv.swap_apply_of_ne_of_ne hqc (Nat.ne_of_lt hkq.lt)]
      exact hl.joined c q hc hkq hq
    · rw [Equiv.swap_apply_of_ne_of_ne hkc hki]
      by_cases hqi : q = i
      · subst hqi
        rw [Equiv.swap_apply_right]
        exact hleast k hkq
      · rw [Equiv.swap_apply_of_ne_of_ne hqc hqi]
        exact hl.others k q hkq hq hki hqi
  · have hki := Nat.ne_of_gt (Nat.lt_trans hc.lt hkc.lt)
    rw [behind_swap, hcq.parent_eq hc, Equiv.swap_apply_right,
      Equiv.swap_apply_of_ne_of_ne (Nat.ne_of_gt hkc.lt) hki]
    exact hl.others k c hkc (Nat.le_trans hm (Nat.le_of_lt hc.lt)) hki hci
  · rw [behind_swap, hcq.parent_eq hc, Equiv.swap_apply_left, Equiv.swap_apply_right]
    exact behind_of_not_before hi hcs (hw.asymm hb)

theorem Sinking.orderedFrom (hs : Sinking before m items i)
    (hstop : ∀ c, IsChild c i → Behind before items c i) : OrderedFrom before m items := by
  intro c p hc hp
  by_cases hci : c = i
  · subst hci
    exact hs.above p hc hp
  · by_cases hpi : p = i
    · subst hpi
      exact hstop c hc
    · exact hs.others c p hc hp hci hpi

theorem items_settle (h : VarHeap) (i : Nat) : (h.settle i).items = h.items := by
  unfold VarHeap.settle
  split <;> rfl

/-- One round of sinking: the key changes places with the chosen child, or it stays where it is
and no child is before it. -/
theorem siftDown_cases (hw : StrictWeak before) (hl : Loose before m h.items i) (hm : m ≤ i) :
    (∃ (c k : Nat) (hc : c < h.items.size) (hi : i < h.items.size), i < c ∧
      Sinking before m (h.items.swap c i hc hi) c ∧ siftDown before h i =
        siftDown before ⟨h.items.swap c i hc hi, h.places.insert k i⟩ c) ∨
    siftDown before h i = h.settle i ∧ ∀ c, IsChild c i → Behind before h.items c i := by
  rw [VarHeap.siftDown]
  split
  next hi =>
      simp only
      have hchild := isChild_chosenChild before h.items i hi
      have hleast := fun k hk => behind_chosenChild (c := k) hw hi hk
      have hc := chosenChild_lt before h.items i hi
      split
      next hb =>
          exact Or.inl ⟨_, _, hc, Nat.lt_trans hchild.lt hc, hchild.lt,
            hl.swap hw hm hchild (Nat.lt_trans hchild.lt hc) hc hleast hb, rfl⟩
      next hb =>
          refine Or.inr ⟨rfl, fun c hci => (hleast c hci).trans hw ?_ hc⟩
          exact behind_of_not_before hc (Nat.lt_trans hchild.lt hc) (Bool.eq_false_iff.2 hb)
  next hi =>
      refine Or.inr ⟨rfl, fun c hc u v hu => ?_⟩
      have hsize := (Array.getElem?_eq_some_iff.1 hu).1
      unfold IsChild at hc
      omega

theorem Sinking.siftDown (hw : StrictWeak before) (hs : Sinking before m h.items i)
    (hm : m ≤ i) : OrderedFrom before m (siftDown before h i).items := by
  -- the sinking key comes closer to the end of the heap
  generalize hn : h.items.size - i = n
  induction n using Nat.strongRecOn generalizing h i with
  | _ n ih =>
    rcases siftDown_cases hw hs.toLoose hm with ⟨c, k, hc, hi, hlt, hsink, heq⟩ | ⟨heq, hstop⟩
    · rw [heq]
      refine ih (h.items.size - c) (by omega) hsink (Nat.le_trans hm (Nat.le_of_lt hlt)) ?_
      simp only [Array.size_swap]
    · rw [heq, items_settle]
      exact hs.orderedFrom hstop

theorem OrderedFrom.siftAll {n : Nat} (hw : StrictWeak before)
    (ho : OrderedFrom before n h.items) : (siftAll before n h).Ordered before := by
  induction n generalizing h with
  | zero => exact ho.ordered
  | succ n ih =>
      refine ih (Sinking.siftDown hw ⟨⟨fun c p hc hp _ hpn => ?_, fun c p _ hn hp => ?_⟩,
        fun p hn hp => ?_⟩ (Nat.le_refl n))
      · exact ho c p hc (by omega)
      · exact absurd hn.lt (Nat.not_lt.2 hp)
      · exact absurd hn.lt (Nat.not_lt.2 hp)

/-! ## The operations -/

theorem ordered_empty : empty.Ordered before := by
  intro c p hc u v hu
  simp [empty] at hu

theorem ordered_insert (hw : StrictWeak before) (ho : h.Ordered before) :
    (h.insert before v).2.Ordered before := by
  unfold insert
  split
  next => exact ho
  next =>
      -- below the last position nothing has changed
      have hsame : ∀ k, k ≠ h.items.size → (h.items.push v)[k]? = h.items[k]? :=
        fun k hk => by rw [Array.getElem?_push, if_neg hk]
      refine Rising.siftUp hw ⟨fun c p hc hci u w hu hw' => ?_, fun c p hc _ u w hu => ?_⟩
      · rw [hsame c hci] at hu
        have hsize := (Array.getElem?_eq_some_iff.1 hu).1
        rw [hsame p (Nat.ne_of_lt (Nat.lt_trans hc.lt hsize))] at hw'
        exact ho c p hc u w hu hw'
      · rw [hsame c (Nat.ne_of_gt hc.lt)] at hu
        exact absurd (Array.getElem?_eq_some_iff.1 hu).1 (Nat.not_lt.2 (Nat.le_of_lt hc.lt))

theorem ordered_pop (hw : StrictWeak before) (ho : h.Ordered before) :
    (h.pop before).2.Ordered before := by
  cases hroot : h.items[0]? with
  | none => simpa only [pop, hroot] using ho
  | some root =>
      rw [pop_of_root hroot]
      have htop : ∀ p, ¬IsChild 0 p := fun p hp => Nat.not_lt_zero p hp.lt
      refine (Sinking.siftDown hw ⟨⟨fun c p hc _ hc0 hp0 u v hu hv => ?_,
        fun c p _ hp => absurd hp (htop p)⟩, fun p hp => absurd hp (htop p)⟩
        (Nat.le_refl 0)).ordered
      exact ho c p hc u v (getElem?_dropRoot hc0 hu) (getElem?_dropRoot hp0 hv)

theorem ordered_ofArray (hw : StrictWeak before) (keys : Array Var) :
    (ofArray before keys).Ordered before := by
  refine OrderedFrom.siftAll hw fun c p hc hp u v hu => ?_
  have hsize := (Array.getElem?_eq_some_iff.1 hu).1
  exact absurd (Nat.lt_trans hc.lt hsize) (Nat.not_lt.2 hp)

/-- Apart from `v`, no two keys changed their order other than to a tie. -/
def Moved (h : VarHeap) (before before' : Var → Var → Bool) (v : Var) : Prop :=
  ∀ a ∈ h.items.toList, ∀ b ∈ h.items.toList, a ≠ v → b ≠ v →
    before' a b = true → before a b = true

theorem Moved.behind {k l : Nat} (hm : h.Moved before before' v)
    (hb : Behind before h.items k l) (hk : h.items[k]? ≠ some v) (hl : h.items[l]? ≠ some v) :
    Behind before' h.items k l := by
  intro a b ha hb'
  refine Bool.eq_false_iff.2 fun hab => ?_
  have hold := hm a (mem_of_getElem? ha) b (mem_of_getElem? hb') (fun he => hk (he ▸ ha))
    (fun he => hl (he ▸ hb')) hab
  rw [hb a b ha hb'] at hold
  cases hold

theorem Ordered.relax (ho : h.Ordered before)
    (hm : ∀ a ∈ h.items.toList, ∀ b ∈ h.items.toList, before' a b = true → before a b = true) :
    h.Ordered before' := by
  intro c p hc u v hu hv
  refine Bool.eq_false_iff.2 fun huv => ?_
  have hold := hm u (mem_of_getElem? hu) v (mem_of_getElem? hv) huv
  rw [ho c p hc u v hu hv] at hold
  cases hold

theorem Ordered.loose (hw : StrictWeak before) (hp : h.Placed) (ho : h.Ordered before)
    (hm : h.Moved before before' v) (hi : h.items[i]? = some v) :
    Loose before' 0 h.items i where
  others c p hc _ hci hpi :=
    hm.behind (ho c p hc) (fun h' => hci (hp.once h' hi)) (fun h' => hpi (hp.once h' hi))
  joined c p hc hp' _ := by
    -- in the old order the key itself stood between the two
    have hsize := (Array.getElem?_eq_some_iff.1 hi).1
    refine hm.behind ((ho c i hc).trans hw (ho i p hp') hsize) (fun h' => ?_) (fun h' => ?_)
    · exact absurd (hp.once h' hi) (Nat.ne_of_gt hc.lt)
    · exact absurd (hp.once h' hi) (Nat.ne_of_lt hp'.lt)

theorem Ordered.rising (hw : StrictWeak before) (ho : h.Ordered before) (i : Nat) :
    Rising before h.items i := by
  refine ⟨fun c p hc _ => ho c p hc, fun c p hc hp u v hu hv => ?_⟩
  have hsize := (Array.getElem?_eq_some_iff.1 hu).1
  exact (ho c i hc).trans hw (ho i p hp) (Nat.lt_trans hc.lt hsize) u v hu hv

/-- Putting a key back in place after its priority changed, and whatever else became a tie. -/
theorem ordered_update (hw : StrictWeak before) (hw' : StrictWeak before') (hp : h.Placed)
    (ho : h.Ordered before) (hm : h.Moved before before' v) :
    (h.update before' v).2.Ordered before' := by
  unfold update
  cases hi : h.places.get? v.index with
  | none =>
      -- `v` is no key, and the order of the keys only lost pairs
      have hv : ∀ k, h.items[k]? ≠ some v := fun k hk => by
        rw [(hp v k).2 hk] at hi
        cases hi
      exact fun c p hc => hm.behind (ho c p hc) (hv c) (hv p)
  | some i =>
      have hl := ho.loose hw hp hm ((hp v i).1 hi)
      have hplaced : (siftDown before' h i).Placed := hp.siftDown i
      dsimp only
      cases hj : (siftDown before' h i).places.get? v.index with
      | none =>
          have hmem := (sifted_siftDown before' h i).perm.mem_iff.2
            (hp.contains_iff.1 (SparseTable.contains_eq_true.2 ⟨i, hi⟩))
          obtain ⟨j, hj'⟩ := SparseTable.contains_eq_true.1 (hplaced.contains_iff.2 hmem)
          rw [hj] at hj'
          cases hj'
      | some j =>
          refine Rising.siftUp hw' ?_
          rcases siftDown_cases hw' hl (Nat.zero_le i) with
            ⟨c, k, hc, his, hlt, hsink, heq⟩ | ⟨heq, hstop⟩
          · rw [heq]
            exact (Sinking.siftDown hw' hsink (Nat.zero_le c)).ordered.rising hw' j
          · -- the key did not sink, so it stands where it stood
            rw [heq] at hj hplaced ⊢
            have hji : j = i := by
              refine hp.once ?_ ((hp v i).1 hi)
              have := (hplaced v j).1 hj
              rwa [items_settle] at this
            rw [items_settle, hji]
            refine ⟨fun c p hc hci => ?_, fun c p hc hp => hl.joined c p hc hp (Nat.zero_le p)⟩
            by_cases hpi : p = i
            · subst hpi
              exact hstop c hc
            · exact hl.others c p hc (Nat.zero_le p) hci hpi

end VarHeap

end CardSat
