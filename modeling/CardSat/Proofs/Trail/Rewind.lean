import CardSat.Proofs.Trail

set_option autoImplicit false

/-! # Taking literals back

`Trail.rewind` goes back to the end of a level: it keeps exactly the literals of the levels up to
that one (`mem_rewind`), with their levels and reasons, and the invariant of the trail
(`valid_rewind`). `Trail.rewindAll` keeps no literal. The other operations that shrink or clear a
part of a trail, `dequeueAll`, `clearReason`, `newVar` and `truncateVars`, follow.

The list of literals is cut at the end of the level, and the cells of the variables that go are
cleared one by one. So each reading is a prefix of the list, or a cell that is cleared if its
variable stands behind the cut (`cellOf_rewind`). On a valid trail a variable stands there only
once, so the cells of the literals that stay are not touched (`cellOf_rewind_of_mem`).

The literals that were taken back are given with the levels they were on, newest first, since the
phases and the queue of decisions are updated from them (`undone_rewind`).
-/

namespace CardSat

namespace Trail

variable {t : Trail}

/-! ## Clearing cells

Clearing a cell takes its value and its reason, and leaves its level. -/

/-- There are as many cells. -/
theorem size_unset (cells : Array Cell) (v : Var) : (unset cells v).size = cells.size := by
  simp [unset]

/-- Clearing one cell changes no other. -/
theorem getD_unset (cells : Array Cell) (v u : Var) :
    (unset cells v).getD u.index {} =
      if u = v then { cells.getD u.index {} with value := .unset, reason := none }
      else cells.getD u.index {} := by
  have huv : v.index = u.index ↔ u = v := by
    cases u; cases v; simp [eq_comm]
  simp only [unset, Array.getD_eq_getD_getElem?, Array.getElem?_modify, huv]
  split
  · cases cells[u.index]? <;> rfl
  · rfl

/-- There are as many cells after any number were cleared. -/
theorem size_foldl_unset (ls : List Lit) (cells : Array Cell) :
    (ls.foldl (fun cells l => unset cells l.var) cells).size = cells.size := by
  induction ls generalizing cells with
  | nil => rfl
  | cons l ls ih => rw [List.foldl_cons, ih, size_unset]

/-- Clearing the cells of some literals. -/
theorem getD_foldl_unset (ls : List Lit) (cells : Array Cell) (u : Var) :
    (ls.foldl (fun cells l => unset cells l.var) cells).getD u.index {} =
      if u ∈ ls.map Lit.var then { cells.getD u.index {} with value := .unset, reason := none }
      else cells.getD u.index {} := by
  induction ls generalizing cells with
  | nil => simp
  | cons l ls ih =>
      rw [List.foldl_cons, ih, getD_unset, List.map_cons]
      by_cases hl : u = l.var
      · by_cases hls : u ∈ ls.map Lit.var <;> simp [hl]
      · by_cases hls : u ∈ ls.map Lit.var
        · rw [if_pos hls, if_pos (List.mem_cons_of_mem _ hls), if_neg hl]
        · rw [if_neg hls, if_neg hl, if_neg (by simp [hl, hls])]

/-! ## Going back to a level

The part of the trail that is left, reading by reading. Going back to a level that is not below the
current one changes nothing, since it ends where the trail ends. -/

/-- The literals up to the end of the level are left. -/
theorem lits_rewind (t : Trail) (b : Nat) :
    (t.rewind b).2.lits.toList = t.lits.toList.take (t.levelEnd b) := by
  simp [rewind, Array.toList_extract]

/-- The levels up to the one given are left. -/
@[simp] theorem starts_rewind (t : Trail) (b : Nat) : (t.rewind b).2.starts = t.starts.take b := rfl

/-- The same, as lists. -/
theorem toList_starts_rewind (t : Trail) (b : Nat) :
    (t.rewind b).2.starts.toList = t.starts.toList.take b := by
  simp [Array.toList_extract]

/-- What was propagated and is left, stays propagated. -/
@[simp] theorem head_rewind (t : Trail) (b : Nat) :
    (t.rewind b).2.head = min t.head (t.levelEnd b) := rfl

/-- The level is the one gone back to, unless it was not reached. -/
@[simp] theorem level_rewind (t : Trail) (b : Nat) : (t.rewind b).2.level = min b t.level := by
  simp [level]

/-- The variables are the same. -/
@[simp] theorem varCount_rewind (t : Trail) (b : Nat) : (t.rewind b).2.varCount = t.varCount :=
  size_foldl_unset _ _

/-- There are as many literals as the level has at its end. -/
theorem size_rewind (hv : t.Valid) (b : Nat) : (t.rewind b).2.lits.size = t.levelEnd b := by
  rw [← Array.length_toList, lits_rewind, List.length_take, Array.length_toList]
  exact Nat.min_eq_left (hv.levelEnd_le b)

/-- The literals taken back are listed with their recorded levels. -/
theorem undone_eq_map (t : Trail) (b : Nat) : (t.rewind b).1 =
    (t.lits.toList.drop (t.levelEnd b)).reverse.map fun l => (t.levelOf l.var, l) := by
  simp only [rewind]
  refine List.map_congr_left fun l _ => ?_
  rw [levelOf, cellOf, Array.getD_eq_getD_getElem?]
  cases t.cells[l.var.index]? with
  | none => rfl
  | some c => rfl

/-- The literals that are taken back, newest first. -/
theorem undone_rewind (t : Trail) (b : Nat) :
    (t.rewind b).1.map Prod.snd = (t.lits.toList.drop (t.levelEnd b)).reverse := by
  rw [undone_eq_map, List.map_map]
  exact List.map_id _

/-- The cells of the variables behind the end of the level are cleared. -/
theorem cellOf_rewind (t : Trail) (b : Nat) (v : Var) :
    (t.rewind b).2.cellOf v =
      if v ∈ (t.lits.toList.drop (t.levelEnd b)).map Lit.var then
        { t.cellOf v with value := .unset, reason := none }
      else t.cellOf v := by
  have := getD_foldl_unset (t.lits.toList.drop (t.levelEnd b)).reverse t.cells v
  simp only [List.map_reverse, List.mem_reverse] at this
  exact this

/-- No level is cleared. -/
@[simp] theorem levelOf_rewind (t : Trail) (b : Nat) (v : Var) :
    (t.rewind b).2.levelOf v = t.levelOf v := by
  rw [levelOf, cellOf_rewind]
  split <;> rfl

/-- The literals that are left are those of the levels up to the one given. -/
theorem mem_rewind (hv : t.Valid) {b : Nat} {l : Lit} :
    l ∈ (t.rewind b).2 ↔ l ∈ t ∧ t.levelOf l.var ≤ b := by
  rw [mem_def, lits_rewind]
  constructor
  · intro h
    have hl : l ∈ t := List.mem_of_mem_take h
    exact ⟨hl, (hv.levelOf_le_iff_mem hl).2 h⟩
  · rintro ⟨hl, hb⟩
    exact (hv.levelOf_le_iff_mem hl).1 hb

/-- A literal that is kept was not taken back under either sign. -/
theorem var_not_mem_drop (hv : t.Valid) {b : Nat} {l : Lit} (hl : l ∈ (t.rewind b).2) :
    l.var ∉ (t.lits.toList.drop (t.levelEnd b)).map Lit.var := by
  intro hd
  rw [mem_def, lits_rewind] at hl
  have hnd := hv.distinct
  rw [← List.take_append_drop (t.levelEnd b) t.lits.toList, List.map_append,
    List.nodup_append] at hnd
  exact hnd.2.2 _ (List.mem_map_of_mem hl) _ hd rfl

/-- The cells of the literals that are left are as before. -/
theorem cellOf_rewind_of_mem (hv : t.Valid) {b : Nat} {l : Lit} (hl : l ∈ (t.rewind b).2) :
    (t.rewind b).2.cellOf l.var = t.cellOf l.var := by
  rw [cellOf_rewind, if_neg (var_not_mem_drop hv hl)]

/-- The literals that are left have the same reasons. -/
theorem reasonOf_rewind (hv : t.Valid) {b : Nat} {l : Lit} (hl : l ∈ (t.rewind b).2) :
    (t.rewind b).2.reasonOf l.var = t.reasonOf l.var := by
  rw [reasonOf, cellOf_rewind_of_mem hv hl, reasonOf]

/-- The literals that are left are the ones that are true. -/
theorem truth_rewind_yes (hv : t.Valid) {b : Nat} {l : Lit} :
    (t.rewind b).2.truth l = .yes ↔ l ∈ (t.rewind b).2 := by
  rw [truth, cellOf_rewind]
  split
  next hd =>
      constructor
      · intro h
        cases hn : l.negated <;> simp [hn, Truth.ofSide, Truth.neg] at h
      · intro h
        exact absurd hd (var_not_mem_drop hv h)
  next hd =>
      have : (t.cellOf l.var).value.ofSide l.negated = t.truth l := rfl
      rw [this, hv.truth_yes]
      constructor
      · intro hl
        rw [mem_def, lits_rewind]
        have hl' : l ∈ t.lits.toList.take (t.levelEnd b) ++ t.lits.toList.drop (t.levelEnd b) := by
          rwa [List.take_append_drop]
        -- a literal is kept, or its variable is taken back
        rcases List.mem_append.1 hl' with h | h
        · exact h
        · exact absurd (List.mem_map_of_mem h) hd
      · intro hl
        exact ((mem_rewind hv).1 hl).1

/-- A level below the current one ends where the next one begins. -/
theorem levelEnd_eq_of_lt {b : Nat} (hb : b < t.level) :
    t.starts.toList[b]? = some (t.levelEnd b) := by
  have hb' : b < t.starts.size := hb
  simp [levelEnd, Array.getD, hb']

/-- The current level ends with the trail. -/
theorem levelEnd_of_le {b : Nat} (hb : t.level ≤ b) : t.levelEnd b = t.lits.size := by
  have hb' : ¬ b < t.starts.size := by rw [level] at hb; omega
  simp [levelEnd, Array.getD, hb']

/-- A higher level does not end before a lower one. -/
theorem levelEnd_mono (hv : t.Valid) {b c : Nat} (hbc : b ≤ c) : t.levelEnd b ≤ t.levelEnd c := by
  by_cases hc : c < t.level
  · have hb' := List.getElem?_eq_some_iff.1 (levelEnd_eq_of_lt (t := t) (Nat.lt_of_le_of_lt hbc hc))
    have hc' := List.getElem?_eq_some_iff.1 (levelEnd_eq_of_lt hc)
    rw [← hb'.2, ← hc'.2]
    rcases Nat.lt_or_eq_of_le hbc with hlt | rfl
    · exact List.pairwise_iff_getElem.1 hv.sorted b c hb'.1 hc'.1 hlt
    · exact Nat.le_refl _
  · rw [levelEnd_of_le (Nat.not_lt.1 hc)]
    exact hv.levelEnd_le b

/-- Going back keeps the trail valid. -/
theorem valid_rewind (hv : t.Valid) (b : Nat) : (t.rewind b).2.Valid where
  distinct := by
    rw [lits_rewind, List.map_take]
    exact hv.distinct.sublist (List.take_sublist _ _)
  truth_yes := fun l => truth_rewind_yes hv
  level_eq := by
    intro i l hi
    rw [lits_rewind, List.getElem?_take] at hi
    split at hi
    next hlt =>
        rw [levelOf_rewind, hv.level_eq i l hi]
        have hle := (hv.levelOf_le_iff hi).2 hlt
        rw [hv.level_eq i l hi] at hle
        -- the levels from `b` on begin after position `i`
        have hdrop : (t.starts.toList.drop b).countP (· ≤ i) = 0 := by
          rw [List.countP_eq_zero]
          intro s hs
          obtain ⟨j, hj⟩ := List.mem_iff_getElem?.1 hs
          rw [List.getElem?_drop] at hj
          have := (countP_le_iff hv.sorted hj (i := i)).1 (by omega)
          simp only [decide_eq_true_eq]
          omega
        have : t.starts.toList.countP (· ≤ i) = (t.starts.toList.take b).countP (· ≤ i) +
            (t.starts.toList.drop b).countP (· ≤ i) := by
          rw [← List.countP_append, List.take_append_drop]
        rw [this, hdrop, Nat.add_zero]
        rw [toList_starts_rewind]
    next => cases hi
  sorted := by
    rw [toList_starts_rewind]
    exact hv.sorted.sublist (List.take_sublist b _)
  starts_le := by
    intro s hs
    rw [toList_starts_rewind] at hs
    rw [size_rewind hv]
    obtain ⟨j, hj⟩ := List.mem_iff_getElem?.1 hs
    rw [List.getElem?_take] at hj
    split at hj
    next hjb =>
        have hlevel : j < t.level := by
          simpa [level] using (List.getElem?_eq_some_iff.1 hj).1
        obtain rfl := Option.some.inj (hj.symm.trans (levelEnd_eq_of_lt hlevel))
        exact levelEnd_mono hv (Nat.le_of_lt hjb)
    next => cases hj
  head_le := by
    rw [size_rewind hv, head_rewind]
    exact Nat.min_le_right _ _

/-- After going back below the current level nothing waits. -/
theorem head_rewind_of_lt (hv : t.Valid) (hq : t.Queued) {b : Nat} (hb : b < t.level) :
    (t.rewind b).2.head = (t.rewind b).2.lits.size := by
  rw [head_rewind, size_rewind hv]
  refine Nat.min_eq_right (Nat.le_trans ?_ hq)
  obtain ⟨c, hc⟩ : ∃ c, t.level = c + 1 := ⟨t.level - 1, by omega⟩
  rw [hc, levelStart]
  exact levelEnd_mono hv (by omega)

/-- A level begins on the trail. -/
theorem levelStart_le_size (hv : t.Valid) (n : Nat) : t.levelStart n ≤ t.lits.size := by
  cases n with
  | zero => exact Nat.zero_le _
  | succ n => exact hv.levelEnd_le n

/-- Nothing waits that belongs to a lower level, if nothing waits at all. -/
theorem queued_of_head (hv : t.Valid) (hh : t.head = t.lits.size) : t.Queued := by
  rw [Queued, hh]
  exact levelStart_le_size hv _

/-- Going back to the current level or above it changes nothing. -/
theorem rewind_of_le (hv : t.Valid) {b : Nat} (hb : t.level ≤ b) : (t.rewind b).2 = t := by
  have he := levelEnd_of_le hb
  have hd : t.lits.toList.drop (t.levelEnd b) = [] := by
    rw [he, ← Array.length_toList, List.drop_length]
  have hs : t.starts.take b = t.starts := by
    apply Array.ext'
    rw [level] at hb
    simp [Array.toList_extract, List.take_of_length_le hb]
  have hl : t.lits.take (t.levelEnd b) = t.lits := by
    apply Array.ext'
    simp [he]
  have hh : min t.head (t.levelEnd b) = t.head := by
    rw [he]
    exact Nat.min_eq_left hv.head_le
  simp only [rewind, hd, List.reverse_nil, List.foldl_nil, hl, hs, hh]

/-- The ends of the levels that are kept. -/
theorem levelEnd_rewind (hv : t.Valid) {b d : Nat} (hdb : d ≤ b) :
    (t.rewind b).2.levelEnd d = t.levelEnd d := by
  rcases Nat.lt_or_ge b t.level with hb | hb
  · rcases Nat.lt_or_eq_of_le hdb with hlt | rfl
    · have hd : d < (t.rewind b).2.level := by
        rw [level_rewind]
        omega
      have hget := levelEnd_eq_of_lt hd
      rw [toList_starts_rewind, List.getElem?_take, if_pos hlt,
        levelEnd_eq_of_lt (Nat.lt_trans hlt hb)] at hget
      exact (Option.some.inj hget).symm
    · rw [levelEnd_of_le (by rw [level_rewind]; exact Nat.min_le_left _ _), size_rewind hv]
  · rw [rewind_of_le hv hb]

/-! ## Taking everything back

No literal and no level is left. The literals of the ground level are taken back too, which a rewind
never does. -/

/-- No literal is left. -/
theorem not_mem_rewindAll (t : Trail) (l : Lit) : l ∉ t.rewindAll.2 := by
  simp [mem_def, rewindAll]

/-- The variables are the same. -/
@[simp] theorem varCount_rewindAll (t : Trail) : t.rewindAll.2.varCount = t.varCount := by
  rw [varCount, rewindAll, ← Array.foldl_toList, size_foldl_unset, varCount]

/-- What is left is the ground level. -/
@[simp] theorem level_rewindAll (t : Trail) : t.rewindAll.2.level = 0 := rfl

/-- No literal has a value. -/
theorem truth_rewindAll (hv : t.Valid) (l : Lit) : t.rewindAll.2.truth l = .unset := by
  have hc : t.rewindAll.2.cellOf l.var =
      if l.var ∈ t.lits.toList.map Lit.var then
        { t.cellOf l.var with value := .unset, reason := none }
      else t.cellOf l.var := by
    have := getD_foldl_unset t.lits.toList t.cells l.var
    rwa [Array.foldl_toList] at this
  rw [truth, hc]
  split
  · cases l.negated <;> rfl
  next hm =>
      refine (hv.truth_unset l).2 ⟨?_, ?_⟩
      · intro hl
        exact hm (List.mem_map_of_mem hl)
      · intro hl
        exact hm (List.mem_map.2 ⟨_, hl, rfl⟩)

/-- Taking everything back keeps the trail valid. -/
theorem valid_rewindAll (hv : t.Valid) : t.rewindAll.2.Valid where
  distinct := by simp [rewindAll]
  truth_yes := by
    intro l
    rw [truth_rewindAll hv]
    simp [not_mem_rewindAll]
  level_eq := by simp [rewindAll]
  sorted := by simp [rewindAll]
  starts_le := by simp [rewindAll]
  head_le := by simp [rewindAll]

/-! ## The queue

The queue is the part of the list behind `head`. -/

/-- The first literal that waits is taken off. -/
theorem dequeue_eq_some {t t' : Trail} {p : Lit} (h : t.dequeue = some (p, t')) :
    t.lits.toList[t.head]? = some p ∧ t' = { t with head := t.head + 1 } := by
  simp only [dequeue, Option.map_eq_some_iff, Prod.mk.injEq] at h
  obtain ⟨l, hl, rfl, rfl⟩ := h
  exact ⟨by rwa [Array.getElem?_toList], rfl⟩

/-- If none is taken off, none waits. -/
theorem dequeue_eq_none (hv : t.Valid) (h : t.dequeue = none) : t.head = t.lits.size := by
  simp only [dequeue, Option.map_eq_none_iff, Array.getElem?_eq_none_iff] at h
  exact Nat.le_antisymm hv.head_le h

/-- Moving the head of the queue keeps the invariant. -/
theorem valid_withHead (hv : t.Valid) {n : Nat} (hn : n ≤ t.lits.size) :
    Valid { t with head := n } where
  distinct := hv.distinct
  truth_yes := hv.truth_yes
  level_eq := hv.level_eq
  sorted := hv.sorted
  starts_le := hv.starts_le
  head_le := hn

/-! ## Forgetting reasons

A reason is forgotten when its constraint is freed. It is a relation between trails here, since
invariants that do not speak of reasons survive it for that reason alone. -/

/-- A trail of which some reasons are forgotten. -/
structure Cleared (t t' : Trail) : Prop where
  lits : t'.lits = t.lits
  starts : t'.starts = t.starts
  head : t'.head = t.head
  varCount : t'.varCount = t.varCount
  value : ∀ v, (t'.cellOf v).value = (t.cellOf v).value
  level : ∀ v, t'.levelOf v = t.levelOf v
  reason : ∀ v, t'.reasonOf v = t.reasonOf v ∨ t'.reasonOf v = none

namespace Cleared

variable {t' t'' : Trail}

/-- Nothing is forgotten. -/
theorem refl (t : Trail) : t.Cleared t :=
  ⟨rfl, rfl, rfl, rfl, fun _ => rfl, fun _ => rfl, fun _ => Or.inl rfl⟩

/-- Forgetting more. -/
theorem trans (h : t.Cleared t') (h' : t'.Cleared t'') : t.Cleared t'' where
  lits := h'.lits.trans h.lits
  starts := h'.starts.trans h.starts
  head := h'.head.trans h.head
  varCount := h'.varCount.trans h.varCount
  value v := (h'.value v).trans (h.value v)
  level v := (h'.level v).trans (h.level v)
  reason v := by
    rcases h'.reason v with h₂ | h₂
    · rw [h₂]
      exact h.reason v
    · exact Or.inr h₂

/-- The literals are the same. -/
theorem mem_iff (h : t.Cleared t') {l : Lit} : l ∈ t' ↔ l ∈ t := by
  rw [mem_def, h.lits, mem_def]

/-- The values are the same. -/
theorem truth (h : t.Cleared t') (l : Lit) : t'.truth l = t.truth l := by
  rw [Trail.truth, h.value, Trail.truth]

/-- The level is the same. -/
theorem level_eq (h : t.Cleared t') : Trail.level t' = Trail.level t := by
  rw [Trail.level, h.starts, Trail.level]

/-- The levels end where they did. -/
theorem levelEnd (h : t.Cleared t') (b : Nat) : t'.levelEnd b = t.levelEnd b := by
  rw [Trail.levelEnd, h.starts, h.lits, Trail.levelEnd]

/-- The levels begin where they did. -/
theorem levelStart (h : t.Cleared t') (b : Nat) : t'.levelStart b = t.levelStart b := by
  cases b with
  | zero => rfl
  | succ b => exact h.levelEnd b

/-- What waits is of the current level, as before. -/
theorem queued (h : t.Cleared t') (hq : t.Queued) : t'.Queued := by
  rwa [Queued, h.levelStart, h.level_eq, h.head]

/-- What was propagated is the same. -/
theorem done_eq (h : t.Cleared t') : t'.done = t.done := by rw [done, h.lits, h.head, done]

/-- The trail stays valid. -/
theorem valid (h : t.Cleared t') (hv : t.Valid) : t'.Valid where
  distinct := h.lits ▸ hv.distinct
  truth_yes l := by rw [h.truth, hv.truth_yes, h.mem_iff]
  level_eq i l hi := by rw [h.level, h.starts]; exact hv.level_eq i l (h.lits ▸ hi)
  sorted := h.starts ▸ hv.sorted
  starts_le := by rw [h.starts, h.lits]; exact hv.starts_le
  head_le := by rw [h.head, h.lits]; exact hv.head_le

end Cleared

/-- Clearing one reason changes no other cell. -/
theorem cellOf_clearReason {t t' : Trail} {v : Var} (h : t.clearReason v = .ok t') (u : Var) :
    t'.cellOf u = if u = v then { t.cellOf u with reason := none } else t.cellOf u := by
  simp only [clearReason, bind_eq_ok, require_eq_ok, pure_eq_ok] at h
  obtain ⟨_, -, rfl⟩ := h
  have huv : v.index = u.index ↔ u = v := by
    cases u; cases v; simp [eq_comm]
  simp only [cellOf, Array.getD_eq_getD_getElem?, Array.getElem?_modify, huv]
  split
  · cases t.cells[u.index]? <;> rfl
  · rfl

/-- Clearing one reason. -/
theorem cleared_of_clearReason {t t' : Trail} {v : Var} (h : t.clearReason v = .ok t') :
    t.Cleared t' := by
  have hc := cellOf_clearReason h
  simp only [clearReason, bind_eq_ok, require_eq_ok, pure_eq_ok] at h
  obtain ⟨_, -, rfl⟩ := h
  refine ⟨rfl, rfl, rfl, by simp [varCount], ?_, ?_, ?_⟩
  · intro u
    rw [hc]
    split <;> rfl
  · intro u
    rw [levelOf, hc, levelOf]
    split <;> rfl
  · intro u
    rw [reasonOf, hc, reasonOf]
    split
    · exact Or.inr rfl
    · exact Or.inl rfl

/-! ## Adding and dropping variables

A new variable gets the next number, and a cell without a value. Variables are only dropped when no
literal is on the trail. -/

/-- A variable is refused only if there are as many as there can be. -/
theorem newVar_eq_ok {t t' : Trail} {v : Var} (h : t.newVar = .ok (v, t')) :
    v = ⟨t.varCount⟩ ∧ t.varCount ≤ Var.maxIndex ∧ t' = { t with cells := t.cells.push {} } := by
  simp only [newVar, bind_eq_ok, Var.checked, pure_eq_ok, Prod.mk.injEq] at h
  obtain ⟨u, hu, rfl, rfl⟩ := h
  split at hu
  next hle => exact ⟨by simpa using (Except.ok.inj hu).symm, hle, rfl⟩
  next => cases hu

/-- The cell of a new variable reads like that of an unknown one. -/
theorem cellOf_push (t : Trail) (v : Var) :
    Trail.cellOf { t with cells := t.cells.push {} } v = t.cellOf v := by
  simp only [cellOf, Array.getD_eq_getD_getElem?, Array.getElem?_push]
  split
  next h => rw [Array.getElem?_eq_none (by omega)]; rfl
  next => rfl

/-- A new variable keeps the trail valid. -/
theorem valid_push (hv : t.Valid) : Valid { t with cells := t.cells.push {} } where
  distinct := hv.distinct
  truth_yes l := by rw [truth, cellOf_push]; exact hv.truth_yes l
  level_eq i l hi := by rw [levelOf, cellOf_push]; exact hv.level_eq i l hi
  sorted := hv.sorted
  starts_le := hv.starts_le
  head_le := hv.head_le

/-- Dropping variables is refused while a literal is on the trail. -/
theorem truncateVars_eq_ok {t t' : Trail} {n : Nat} : t.truncateVars n = .ok t' ↔
    t.lits = #[] ∧ t' = { t with cells := t.cells.take n } := by
  simp only [truncateVars, bind_eq_ok, require_eq_ok, pure_eq_ok]
  constructor
  · rintro ⟨_, he, rfl⟩
    exact ⟨by simpa using he, rfl⟩
  · rintro ⟨he, rfl⟩
    exact ⟨(), by simp [he], rfl⟩

/-- Dropping variables keeps the trail valid. -/
theorem valid_truncateVars {t t' : Trail} {n : Nat} (hv : t.Valid)
    (h : t.truncateVars n = .ok t') : t'.Valid := by
  obtain ⟨he, rfl⟩ := truncateVars_eq_ok.1 h
  have hu : ∀ l, t.truth l = .unset := by
    intro l
    rw [hv.truth_unset]
    simp [mem_def, he]
  refine ⟨hv.distinct, ?_, ?_, hv.sorted, hv.starts_le, hv.head_le⟩
  · intro l
    have : Trail.truth { t with cells := t.cells.take n } l = .unset := by
      have := hu l
      rw [truth, Truth.ofSide_eq_unset] at this ⊢
      simp only [cellOf, Array.getD_eq_getD_getElem?, Array.take_eq_extract,
        Array.getElem?_extract] at this ⊢
      split
      · simpa using this
      · rfl
    rw [this]
    simp [mem_def, he]
  · intro i l hi
    simp [he] at hi

end Trail

end CardSat
