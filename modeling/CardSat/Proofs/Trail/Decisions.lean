import CardSat.Proofs.Trail.Rewind

set_option autoImplicit false

/-! # Decisions on a trail

The decisions of a trail are its literals above the ground level that nothing forced
(`Trail.decisions`). Where every level is opened by a decision, they are the first literals of their
levels (`Trail.Led`), and no level lacks one (`Trail.Opened`).

These are two different promises, and a search keeps only the first: it opens levels without a
decision for assumptions that are true already. A caller who decides step by step keeps both. The
first is what an analysis needs, since the walk down the trail must not come to a decision before it
is done; the second is what a caller needs who counts levels.

Every step keeps them for simple reasons. What propagation adds is forced. Going back leaves whole
levels.
-/

namespace CardSat

namespace Trail

variable {t t' : Trail} {l d : Lit}

/-- A literal above the ground level that no constraint forced. -/
structure IsDecision (t : Trail) (d : Lit) : Prop where
  mem : d ∈ t
  above : 0 < t.levelOf d.var
  free : t.reasonOf d.var = none

/-- The decisions, oldest first. -/
def decisions (t : Trail) : List Lit :=
  t.lits.toList.filter fun l => 0 < t.levelOf l.var ∧ t.reasonOf l.var = none

/-- The list of decisions has all of them. -/
theorem mem_decisions : d ∈ t.decisions ↔ t.IsDecision d := by
  rw [decisions, List.mem_filter, decide_eq_true_iff]
  exact ⟨fun h => ⟨h.1, h.2.1, h.2.2⟩, fun h => ⟨h.mem, h.above, h.free⟩⟩

/-- There are no decisions at the ground level. -/
theorem decisions_of_ground (hv : t.Valid) (hground : t.level = 0) : t.decisions = [] := by
  refine List.eq_nil_iff_forall_not_mem.2 fun d hd => ?_
  have hd := mem_decisions.1 hd
  have := hd.above
  have := hv.levelOf_le hd.mem
  omega

/-- Every decision is the first literal of its level. -/
def Led (t : Trail) : Prop :=
  ∀ i d, t.lits.toList[i]? = some d → t.IsDecision d → i = t.levelStart (t.levelOf d.var)

/-- A decision of the current level that is not the first literal of it. -/
structure Misplaced (t : Trail) (d : Lit) : Prop where
  decision : t.IsDecision d
  current : t.levelOf d.var = t.level
  later : ∃ i, t.lits.toList[i]? = some d ∧ t.levelStart t.level < i

/-- Where levels begin with their decisions, none is misplaced. -/
theorem Led.not_misplaced (h : t.Led) : ¬ t.Misplaced d := by
  rintro ⟨hd, hcur, i, hi, hlt⟩
  have hstart := h i d hi hd
  rw [hcur] at hstart
  omega

/-- Every open level has a decision. -/
def Opened (t : Trail) : Prop := ∀ k, 0 < k → k ≤ t.level → ∃ d, t.IsDecision d ∧ t.levelOf d.var = k

/-! ## Decisions of a changed trail -/

/-- If what is added is forced, there are no new decisions. -/
theorem IsDecision.of_extends (h : t'.IsDecision d) (hx : t.Extends t')
    (hforced : ∀ m ∈ t', m ∈ t ∨ ∃ a, t'.reasonOf m.var = some a) : t.IsDecision d := by
  rcases hforced d h.mem with hd | ⟨a, ha⟩
  · exact ⟨hd, hx.levelOf hd ▸ h.above, hx.reasonOf hd ▸ h.free⟩
  · rw [h.free] at ha
    cases ha

/-- Going back adds no decisions. -/
theorem IsDecision.of_rewind {b : Nat} (h : (t.rewind b).2.IsDecision d) (hv : t.Valid) :
    t.IsDecision d :=
  ⟨((mem_rewind hv).1 h.mem).1, levelOf_rewind t b _ ▸ h.above,
    reasonOf_rewind hv h.mem ▸ h.free⟩

/-- A new level has the decision that opens it, and no other. -/
theorem IsDecision.of_decide (h : t'.IsDecision d) (hv : t.Valid)
    (ha : t.openLevel.Assigned l none t') : t.IsDecision d ∨ d = l := by
  have hvo := valid_openLevel hv
  refine (ha.mem_iff.1 h.mem).imp_left fun hd => ⟨hd, ?_, ?_⟩
  · exact ha.levelOf_of_mem hvo hd ▸ h.above
  · exact ha.reasonOf_of_mem hvo hd ▸ h.free

/-! ## Levels that begin with their decisions -/

/-- A level begins where it began if the same levels are there. -/
theorem levelStart_congr {k : Nat} (hk : k ≤ t.level) (hk' : k ≤ t'.level)
    (h : t'.starts.toList.take k = t.starts.toList.take k) : t'.levelStart k = t.levelStart k := by
  cases k with
  | zero => rfl
  | succ k =>
      have hget := congrArg (fun s => s[k]?) h
      simp only [List.getElem?_take, Nat.lt_succ_self, if_true] at hget
      exact Option.some.inj ((levelEnd_eq_of_lt hk').symm.trans
        (hget.trans (levelEnd_eq_of_lt hk)))

/-- At the ground level there is nothing to say. -/
theorem led_of_ground (hv : t.Valid) (hground : t.level = 0) : t.Led := by
  intro i d hi hd
  have := hd.above
  have := hv.levelOf_le hd.mem
  omega

/-- What is forced is no decision. -/
theorem Led.extends (h : t.Led) (hx : t.Extends t') (hv' : t'.Valid)
    (hforced : ∀ m ∈ t', m ∈ t ∨ ∃ a, t'.reasonOf m.var = some a) : t'.Led := by
  intro i d hi hd
  have hd₀ := hd.of_extends hx hforced
  obtain ⟨j, hj⟩ := List.mem_iff_getElem?.1 hd₀.mem
  have hij : i = j := (List.getElem?_inj (List.getElem?_eq_some_iff.1 hi).1
    hv'.distinct.of_map).1 (hi.trans (hx.getElem? hj).symm)
  have hle : t'.levelOf d.var ≤ t'.level := hv'.levelOf_le hd.mem
  rw [hij, h j d hj hd₀, ← hx.levelOf hd₀.mem]
  exact (levelStart_congr (hx.level_eq ▸ hle) hle (by rw [hx.starts])).symm

/-- Levels that are left begin as before. -/
theorem Led.rewind (h : t.Led) (hv : t.Valid) (b : Nat) : (t.rewind b).2.Led := by
  intro i d hi hd
  have hv' := valid_rewind hv b
  rw [lits_rewind, List.getElem?_take] at hi
  split at hi
  next =>
      have hle : t.levelOf d.var ≤ (t.rewind b).2.level :=
        levelOf_rewind t b _ ▸ hv'.levelOf_le hd.mem
      have hle' := hle
      rw [level_rewind] at hle'
      rw [levelOf_rewind, h i d hi (hd.of_rewind hv)]
      refine (levelStart_congr (by omega) hle ?_).symm
      rw [toList_starts_rewind, List.take_take, Nat.min_eq_left (by omega)]
  next => cases hi

/-- The decision that opens a level stands at its beginning. -/
theorem Led.decide (h : t.Led) (hv : t.Valid) (ha : t.openLevel.Assigned l none t') : t'.Led := by
  intro i d hi hd
  have hvo := valid_openLevel hv
  have hv' := ha.valid hvo
  have hstarts : t'.starts = t.starts.push t.lits.size := ha.starts
  rcases hd.of_decide hv ha with hd₀ | rfl
  · have hle := hv.levelOf_le hd₀.mem
    obtain ⟨j, hj⟩ := List.mem_iff_getElem?.1 hd₀.mem
    have hij : i = j := (List.getElem?_inj (List.getElem?_eq_some_iff.1 hi).1
      hv'.distinct.of_map).1 (hi.trans ((ha.extends hvo).getElem? hj).symm)
    have hlev : t'.levelOf d.var = t.levelOf d.var := ha.levelOf_of_mem hvo hd₀.mem
    rw [hij, h j d hj hd₀, hlev]
    refine (levelStart_congr hle ?_ ?_).symm
    · rw [ha.level_eq, level_openLevel]
      exact Nat.le_succ_of_le hle
    · rw [hstarts, Array.toList_push, List.take_append_of_le_length (by simpa [level] using hle)]
  · have hlast : t'.lits.toList[t.lits.size]? = some d := by
      rw [ha.lits, List.getElem?_append_right (by simp [openLevel])]
      simp [openLevel]
    have hi' : i = t.lits.size := (List.getElem?_inj (List.getElem?_eq_some_iff.1 hi).1
      hv'.distinct.of_map).1 (hi.trans hlast.symm)
    rw [hi', ha.levelOf_self, level_openLevel, levelStart, levelEnd, hstarts]
    simp [level]

/-- A level without literals has no decision. -/
theorem Led.openLevel (h : t.Led) (hv : t.Valid) : t.openLevel.Led := by
  intro i d hi hd
  have hd₀ : t.IsDecision d := ⟨hd.mem, hd.above, hd.free⟩
  have hle := hv.levelOf_le hd₀.mem
  rw [h i d hi hd₀]
  refine (levelStart_congr hle (by rw [level_openLevel]; omega) ?_).symm
  rw [Trail.openLevel, Array.toList_push, List.take_append_of_le_length (by simpa [level] using hle)]

/-! ## Levels with decisions -/

/-- At the ground level there is nothing to say. -/
theorem opened_of_ground (hground : t.level = 0) : t.Opened := by
  intro k hpos hk
  omega

/-- The decisions are still there. -/
theorem Opened.extends (h : t.Opened) (hx : t.Extends t') : t'.Opened := by
  intro k hpos hk
  obtain ⟨d, hd, hlev⟩ := h k hpos (hx.level_eq ▸ hk)
  have hlev' := hx.levelOf hd.mem
  exact ⟨d, ⟨hx.mem hd.mem, hlev' ▸ hd.above, (hx.reasonOf hd.mem).trans hd.free⟩, hlev'.trans hlev⟩

/-- The levels that are left have their decisions. -/
theorem Opened.rewind (h : t.Opened) (hv : t.Valid) (b : Nat) : (t.rewind b).2.Opened := by
  intro k hpos hk
  rw [level_rewind] at hk
  obtain ⟨d, hd, hlev⟩ := h k hpos (by omega)
  have hmem : d ∈ (t.rewind b).2 := (mem_rewind hv).2 ⟨hd.mem, by omega⟩
  refine ⟨d, ⟨hmem, ?_, (reasonOf_rewind hv hmem).trans hd.free⟩, ?_⟩
  · rw [levelOf_rewind]
    exact hd.above
  · rw [levelOf_rewind, hlev]

/-- The new level has the new decision. -/
theorem Opened.decide (h : t.Opened) (hv : t.Valid) (ha : t.openLevel.Assigned l none t') :
    t'.Opened := by
  intro k hpos hk
  rw [ha.level_eq, level_openLevel] at hk
  rcases Nat.lt_or_ge t.level k with hlt | hle
  · -- the new level begins with the decision that opened it
    obtain rfl : k = t.level + 1 := by omega
    have hlev : t'.levelOf l.var = t.level + 1 := ha.levelOf_self.trans (level_openLevel t)
    exact ⟨l, ⟨ha.mem_iff.2 (Or.inr rfl), hlev ▸ hpos, ha.reasonOf_self⟩, hlev⟩
  · obtain ⟨d, hd, hlev⟩ := h k hpos hle
    have hvo := valid_openLevel hv
    have hlev' : t'.levelOf d.var = t.levelOf d.var := ha.levelOf_of_mem hvo hd.mem
    exact ⟨d, ⟨ha.mem_iff.2 (Or.inl hd.mem), hlev' ▸ hd.above,
      (ha.reasonOf_of_mem hvo hd.mem).trans hd.free⟩, hlev'.trans hlev⟩

end Trail

end CardSat
