import CardSat.Proofs.Succeeds
import CardSat.Proofs.Trail.Rewind
import Mathlib.Data.List.Perm.Subperm

set_option autoImplicit false

/-! # Runs of operations on a trail

`Trail.Reached` are the trails that operations build from the empty one, in any order and at any
level: levels may be empty, several levels may be taken back at once, and the queue may end in the
middle of the trail. Every one of them is valid, and an operation is refused only where its own
condition fails (`succeeds_run_iff`).

Going back takes one level after the other (`rewind_eq_append`). Below the current level it leads to
the literals and level starts of the trail on which the next level was opened, and so to its values
and levels (`rewinds_of_reached`): as long as the level is open, they stay at the bottom of the
trail (`OpenedOn.prefixes`), and of a valid trail they tell the rest.

## How the proof goes

For the list of literals and the level starts the nine operations do one of five things (`Shifts`),
and no more is needed to see what stays at the bottom. A prefix of both lists survives as long as
the level above it is not taken back. Going back then cuts both lists at the end of the prefix. The
cells are not followed at all: of two valid trails with the same lists, every literal has the same
value and the same level (`truth_congr`, `levelOf_congr`), so what is known of the lists is known of
the rest.
-/

namespace CardSat

namespace Trail

variable {t t' base : Trail} {l : Lit} {v : Var} {h : Handle}

/-! ## Readings that are not refused

Each reading asks for the cell of a variable, so it is refused only for unknown ones. -/

/-- A known variable has a cell. -/
theorem succeeds_cell (hv : v.index < t.varCount) : Succeeds (t.cell v) :=
  ⟨_, cell_eq_ok.2 ⟨hv, rfl⟩⟩

/-- A literal of a known variable has a value, which may be none. -/
theorem succeeds_value (hl : l.var.index < t.varCount) : Succeeds (t.value l) :=
  ⟨_, value_eq_ok.2 ⟨hl, rfl⟩⟩

/-- It can be asked whether such a literal is true. -/
theorem succeeds_isTrue (hl : l.var.index < t.varCount) : Succeeds (t.isTrue l) :=
  succeeds_bind (succeeds_value hl) fun _ _ => succeeds_pure _

/-- It can be asked whether such a literal is false. -/
theorem succeeds_isFalse (hl : l.var.index < t.varCount) : Succeeds (t.isFalse l) :=
  succeeds_bind (succeeds_value hl) fun _ _ => succeeds_pure _

/-- It can be asked whether a known variable has no value. -/
theorem succeeds_isUnset (hv : v.index < t.varCount) : Succeeds (t.isUnset v) :=
  succeeds_bind (succeeds_cell hv) fun _ _ => succeeds_pure _

/-- It can be asked for what reason such a literal is true. -/
theorem succeeds_isReasonFor (hl : l.var.index < t.varCount) : Succeeds (t.isReasonFor h l) :=
  succeeds_bind (succeeds_cell hl) fun _ _ => succeeds_pure _

/-- There are no more literals than variables. -/
theorem Valid.size_le (hv : t.Valid) : t.lits.size ≤ t.varCount := by
  have hnd : (t.lits.toList.map fun l => l.var.index).Nodup := by
    have := hv.distinct.map (f := Var.index) fun a b h => by cases a; cases b; exact congrArg _ h
    simpa [List.map_map, Function.comp_def] using this
  have hsub : t.lits.toList.map (fun l => l.var.index) ⊆ List.range t.varCount := by
    intro i hi
    obtain ⟨l, hl, rfl⟩ := List.mem_map.1 hi
    exact List.mem_range.2 (hv.lt_varCount hl)
  simpa using (List.subperm_of_subset hnd hsub).length_le

/-! ## Operations -/

/-- An assignment is refused for unknown variables and for those with a value. -/
theorem succeeds_assign_iff {r : Option Handle} :
    Succeeds (t.assign l r) ↔ l.var.index < t.varCount ∧ t.truth l = .unset := by
  constructor
  · rintro ⟨t', ht⟩
    have ha := assigned_of_assign ht
    exact ⟨ha.bound, ha.unset⟩
  · rintro ⟨hl, hu⟩
    refine succeeds_bind (succeeds_cell hl) fun c hc => ?_
    obtain ⟨-, rfl⟩ := cell_eq_ok.1 hc
    exact succeeds_bind (succeeds_require _ (isUnset_iff.2 hu)) fun _ _ => succeeds_pure _

/-- An unset literal of a known variable may be assigned. -/
theorem succeeds_assign (hl : l.var.index < t.varCount) (hu : t.truth l = .unset)
    (r : Option Handle) : Succeeds (t.assign l r) := succeeds_assign_iff.2 ⟨hl, hu⟩

/-- Clearing a reason is refused for unknown variables. -/
theorem succeeds_clearReason_iff : Succeeds (t.clearReason v) ↔ v.index < t.varCount := by
  constructor
  · rintro ⟨t', ht⟩
    simp only [clearReason, bind_eq_ok, require_eq_ok] at ht
    obtain ⟨_, hv, -⟩ := ht
    exact of_decide_eq_true hv
  · intro hv
    exact succeeds_bind (succeeds_require _ (decide_eq_true hv)) fun _ _ => succeeds_pure _

/-- The reason of a known variable may be cleared. -/
theorem succeeds_clearReason (hl : l.var.index < t.varCount) : Succeeds (t.clearReason l.var) :=
  succeeds_clearReason_iff.2 hl

/-- The operations that change a trail. -/
inductive Op where
  | newVar
  | openLevel
  | assign (l : Lit) (reason : Option Handle)
  | dequeue
  | dequeueAll
  | clearReason (v : Var)
  | rewind (target : Nat)
  | rewindAll
  | truncateVars (n : Nat)

namespace Op

variable {op : Op}

/-- The trail that an operation leaves. -/
def run (t : Trail) : Op → Checked Trail
  | newVar => return (← t.newVar).2
  | openLevel => return t.openLevel
  | assign l reason => t.assign l reason
  | dequeue => return (t.dequeue.map Prod.snd).getD t
  | dequeueAll => return t.dequeueAll
  | clearReason v => t.clearReason v
  | rewind target => return (t.rewind target).2
  | rewindAll => return t.rewindAll.2
  | truncateVars n => t.truncateVars n

/-- The condition of an operation. -/
def Allowed (t : Trail) : Op → Prop
  | newVar => t.varCount ≤ Var.maxIndex
  | assign l _ => l.var.index < t.varCount ∧ t.truth l = .unset
  | clearReason v => v.index < t.varCount
  | truncateVars _ => t.lits = #[]
  | openLevel | dequeue | dequeueAll | rewind _ | rewindAll => True

/-- An operation is refused only where its condition fails. -/
theorem succeeds_run_iff (t : Trail) (op : Op) : Succeeds (op.run t) ↔ op.Allowed t := by
  cases op with
  | newVar =>
    constructor
    · rintro ⟨t', ht⟩
      simp only [run, bind_eq_ok] at ht
      obtain ⟨⟨v, t₁⟩, hnew, -⟩ := ht
      exact (newVar_eq_ok hnew).2.1
    · intro hle
      have hvar : Var.checked t.varCount = .ok ⟨t.varCount⟩ := if_pos hle
      refine succeeds_bind (succeeds_bind ⟨_, hvar⟩ fun _ _ => succeeds_pure _) fun _ _ =>
        succeeds_pure _
  | assign l r => exact succeeds_assign_iff
  | clearReason v => exact succeeds_clearReason_iff
  | truncateVars n =>
    constructor
    · rintro ⟨t', ht⟩
      exact (truncateVars_eq_ok.1 ht).1
    · intro he
      exact ⟨_, truncateVars_eq_ok.2 ⟨he, rfl⟩⟩
  | openLevel => exact iff_of_true (succeeds_pure _) trivial
  | dequeue => exact iff_of_true (succeeds_pure _) trivial
  | dequeueAll => exact iff_of_true (succeeds_pure _) trivial
  | rewind target => exact iff_of_true (succeeds_pure _) trivial
  | rewindAll => exact iff_of_true (succeeds_pure _) trivial

/-- What an operation does to the literals and the level starts of a trail. -/
inductive Shifts (t t' : Trail) : Prop
  | stays (hlits : t'.lits = t.lits) (hstarts : t'.starts = t.starts)
  | opens (h : t' = t.openLevel)
  | pushes (l : Lit) (hlits : t'.lits.toList = t.lits.toList ++ [l]) (hstarts : t'.starts = t.starts)
  | cuts (target : Nat) (h : t' = (t.rewind target).2)
  | clears (hlits : t'.lits = #[]) (hstarts : t'.starts = #[])

/-- What each operation does to the two lists. -/
theorem shifts_of_run (h : op.run t = .ok t') : Shifts t t' := by
  -- every operation does one of the five things to the two lists
  cases op with
  | newVar =>
    simp only [run, bind_eq_ok, pure_eq_ok] at h
    obtain ⟨⟨v, t₁⟩, hnew, rfl⟩ := h
    obtain ⟨-, -, rfl⟩ := newVar_eq_ok hnew
    exact .stays rfl rfl
  | openLevel => exact .opens (pure_eq_ok.1 h).symm
  | assign l r =>
    have ha := assigned_of_assign h
    exact .pushes l ha.lits ha.starts
  | dequeue =>
    obtain rfl := pure_eq_ok.1 h
    cases hd : t.dequeue with
    | none => exact .stays rfl rfl
    | some x =>
      obtain ⟨p, t₁⟩ := x
      obtain ⟨-, rfl⟩ := dequeue_eq_some hd
      exact .stays rfl rfl
  | dequeueAll =>
    obtain rfl := pure_eq_ok.1 h
    exact .stays rfl rfl
  | clearReason v =>
    have hc := cleared_of_clearReason h
    exact .stays hc.lits hc.starts
  | rewind target => exact .cuts target (pure_eq_ok.1 h).symm
  | rewindAll =>
    obtain rfl := pure_eq_ok.1 h
    exact .clears rfl rfl
  | truncateVars n =>
    obtain ⟨-, rfl⟩ := truncateVars_eq_ok.1 h
    exact .stays rfl rfl

/-- Only opening a level adds one. -/
theorem Shifts.level_le (h : Shifts t t') : t' = t.openLevel ∨ t'.level ≤ t.level := by
  cases h with
  | stays _ hstarts => exact .inr (Nat.le_of_eq (by rw [level, hstarts, level]))
  | opens h => exact .inl h
  | pushes l _ hstarts => exact .inr (Nat.le_of_eq (by rw [level, hstarts, level]))
  | cuts target h =>
    rw [h, level_rewind]
    exact .inr (Nat.min_le_right _ _)
  | clears _ hstarts =>
    rw [level, hstarts]
    exact .inr (Nat.zero_le _)

/-- Every operation keeps the invariant. -/
theorem valid_run (hv : t.Valid) (h : op.run t = .ok t') : t'.Valid := by
  cases op with
  | newVar =>
    simp only [run, bind_eq_ok, pure_eq_ok] at h
    obtain ⟨⟨v, t₁⟩, hnew, rfl⟩ := h
    obtain ⟨-, -, rfl⟩ := newVar_eq_ok hnew
    exact valid_push hv
  | openLevel =>
    obtain rfl := pure_eq_ok.1 h
    exact valid_openLevel hv
  | assign l r => exact (assigned_of_assign h).valid hv
  | dequeue =>
    obtain rfl := pure_eq_ok.1 h
    cases hd : t.dequeue with
    | none => exact hv
    | some x =>
      obtain ⟨p, t₁⟩ := x
      obtain ⟨hp, rfl⟩ := dequeue_eq_some hd
      have hlt := (List.getElem?_eq_some_iff.1 hp).1
      rw [Array.length_toList] at hlt
      exact valid_withHead hv hlt
  | dequeueAll =>
    obtain rfl := pure_eq_ok.1 h
    exact valid_withHead hv (Nat.le_refl _)
  | clearReason v => exact (cleared_of_clearReason h).valid hv
  | rewind target =>
    obtain rfl := pure_eq_ok.1 h
    exact valid_rewind hv target
  | rewindAll =>
    obtain rfl := pure_eq_ok.1 h
    exact valid_rewindAll hv
  | truncateVars n => exact valid_truncateVars hv h

end Op

/-! ## One level after the other -/

/-- Going back further takes back what is left. -/
theorem rewind_rewind (hv : t.Valid) {b d : Nat} (hdb : d ≤ b) :
    t.rewind d =
      ((t.rewind b).1 ++ ((t.rewind b).2.rewind d).1, ((t.rewind b).2.rewind d).2) := by
  have hle : t.levelEnd d ≤ t.levelEnd b := levelEnd_mono hv hdb
  have hend : (t.rewind b).2.levelEnd d = t.levelEnd d := levelEnd_rewind hv hdb
  -- what stands above level `d` is what is left of it below level `b`, and what stands above `b`
  have hsplit : t.lits.toList.drop (t.levelEnd d) =
      (t.rewind b).2.lits.toList.drop (t.levelEnd d) ++ t.lits.toList.drop (t.levelEnd b) := by
    rw [lits_rewind, ← List.drop_append_of_le_length (by
      rw [List.length_take, Array.length_toList]
      exact Nat.le_min.2 ⟨hle, hv.levelEnd_le d⟩), List.take_append_drop]
  refine Prod.ext ?_ ?_
  · calc (t.rewind d).1
        = (t.lits.toList.drop (t.levelEnd d)).reverse.map fun l => (t.levelOf l.var, l) :=
          undone_eq_map t d
      _ = (t.rewind b).1 ++ ((t.rewind b).2.lits.toList.drop (t.levelEnd d)).reverse.map
            fun l => (t.levelOf l.var, l) := by
          rw [hsplit, List.reverse_append, List.map_append, undone_eq_map t b]
      _ = (t.rewind b).1 ++ ((t.rewind b).2.rewind d).1 := by
          rw [undone_eq_map _ d, hend]
          simp only [levelOf_rewind]
  · have hcells : (t.rewind d).2.cells = ((t.rewind b).2.rewind d).2.cells := by
      show (t.lits.toList.drop (t.levelEnd d)).reverse.foldl _ t.cells =
        ((t.rewind b).2.lits.toList.drop ((t.rewind b).2.levelEnd d)).reverse.foldl _
          (t.rewind b).2.cells
      rw [hend, hsplit, List.reverse_append, List.foldl_append]
      rfl
    have hlits : (t.rewind d).2.lits = ((t.rewind b).2.rewind d).2.lits := by
      apply Array.toList_inj.1
      rw [lits_rewind, lits_rewind, lits_rewind, hend, List.take_take, Nat.min_eq_left hle]
    have hstarts : (t.rewind d).2.starts = ((t.rewind b).2.rewind d).2.starts := by
      apply Array.toList_inj.1
      rw [toList_starts_rewind, toList_starts_rewind, toList_starts_rewind, List.take_take,
        Nat.min_eq_left hdb]
    have hhead : (t.rewind d).2.head = ((t.rewind b).2.rewind d).2.head := by
      rw [head_rewind, head_rewind, head_rewind, hend, Nat.min_assoc, Nat.min_eq_right hle]
    show (⟨_, _, _, _⟩ : Trail) = ⟨_, _, _, _⟩
    rw [Trail.mk.injEq]
    exact ⟨hcells, hlits, hstarts, hhead⟩

/-- The last level is taken back with its own number. -/
theorem undone_last (hv : t.Valid) (hlevel : 0 < t.level) :
    (t.rewind (t.level - 1)).1 = t.currentLevel.reverse.map fun l => (t.level, l) := by
  have hstart : t.levelStart t.level = t.levelEnd (t.level - 1) := by
    obtain ⟨k, hk⟩ : ∃ k, t.level = k + 1 := ⟨t.level - 1, by omega⟩
    rw [hk]
    rfl
  rw [undone_eq_map, currentLevel, hstart]
  refine List.map_congr_left fun l hl => ?_
  obtain ⟨i, hi⟩ := List.mem_iff_getElem?.1 (List.mem_reverse.1 hl)
  rw [List.getElem?_drop] at hi
  have habove : ¬ t.levelOf l.var ≤ t.level - 1 := fun hle => by
    have := (hv.levelOf_le_iff hi).1 hle
    omega
  have hle := hv.levelOf_le (List.mem_of_getElem? hi)
  have hself : t.levelOf l.var = t.level := by omega
  rw [hself]

/-- Going back over several levels takes the last one back first. -/
theorem rewind_eq_append (hv : t.Valid) {d : Nat} (hd : d < t.level) :
    t.rewind d =
      (t.currentLevel.reverse.map (fun l => (t.level, l)) ++
          ((t.rewind (t.level - 1)).2.rewind d).1,
        ((t.rewind (t.level - 1)).2.rewind d).2) := by
  rw [← undone_last hv (by omega)]
  exact rewind_rewind hv (by omega)

/-! ## Trails with the same literals and level starts -/

/-- The literals of a valid trail tell its values. -/
theorem truth_congr (hv : t.Valid) (hv' : t'.Valid) (hlits : t'.lits = t.lits) (l : Lit) :
    t'.truth l = t.truth l := by
  have hmem : ∀ m, m ∈ t' ↔ m ∈ t := fun m => by rw [mem_def, mem_def, hlits]
  cases ht : t.truth l with
  | yes => exact (hv'.truth_yes l).2 ((hmem l).2 ((hv.truth_yes l).1 ht))
  | no => exact (hv'.truth_no l).2 ((hmem l.neg).2 ((hv.truth_no l).1 ht))
  | unset =>
    have hnone := (hv.truth_unset l).1 ht
    exact (hv'.truth_unset l).2 ⟨mt (hmem l).1 hnone.1, mt (hmem l.neg).1 hnone.2⟩

/-- Together with the level starts they tell the levels. -/
theorem levelOf_congr (hv : t.Valid) (hv' : t'.Valid) (hlits : t'.lits = t.lits)
    (hstarts : t'.starts = t.starts) (hl : l ∈ t) : t'.levelOf l.var = t.levelOf l.var := by
  obtain ⟨i, hi⟩ := List.mem_iff_getElem?.1 hl
  rw [hv.level_eq i l hi, hv'.level_eq i l (by rw [hlits, hi]), hstarts]

/-! ## Runs -/

/-- The trails that operations build from the empty one. -/
inductive Reached : Trail → Prop
  | empty : Reached Trail.empty
  | run {t t' : Trail} (op : Op) (ht : Reached t) (h : op.run t = .ok t') : Reached t'

/-- The trails that operations build on a trail on which a level was opened, as long as that level
stays open. -/
inductive OpenedOn (base : Trail) : Trail → Prop
  | opened : OpenedOn base base.openLevel
  | run {t t' : Trail} (op : Op) (ht : OpenedOn base t) (h : op.run t = .ok t')
      (hopen : base.level < t'.level) : OpenedOn base t'

/-- Every trail that operations build is valid. -/
theorem Reached.valid (ht : t.Reached) : t.Valid := by
  induction ht with
  | empty => exact valid_empty
  | run op _ h ih => exact Op.valid_run ih h

/-- Every level below the current one was left by opening the next. -/
theorem Reached.exists_base (ht : t.Reached) {d : Nat} (hd : d < t.level) :
    ∃ base : Trail, base.Reached ∧ base.level = d ∧ base.OpenedOn t := by
  induction ht with
  | empty => exact absurd hd (Nat.not_lt_zero d)
  | @run t t' op ht h ih =>
    have hstays : d < t.level → ∃ base : Trail, base.Reached ∧ base.level = d ∧
        base.OpenedOn t' := fun hlt => by
      obtain ⟨base, hbase, hlevel, hopen⟩ := ih hlt
      exact ⟨base, hbase, hlevel, hopen.run op h (hlevel ▸ hd)⟩
    rcases (Op.shifts_of_run h).level_le with rfl | hle
    · -- the new level was opened on `t`, the lower ones on earlier trails
      rw [level_openLevel] at hd
      rcases Nat.lt_or_eq_of_le (Nat.le_of_lt_succ hd) with hlt | heq
      · exact hstays hlt
      · exact ⟨t, ht, heq.symm, .opened⟩
    · exact hstays (Nat.lt_of_lt_of_le hd hle)

/-- So is every trail built on a valid one. -/
theorem OpenedOn.valid (hbase : base.Valid) (ht : base.OpenedOn t) : t.Valid := by
  induction ht with
  | opened => exact valid_openLevel hbase
  | run op _ h _ ih => exact Op.valid_run ih h

/-- Where the literals and level starts of `base` are those at the bottom of a trail, followed by
the start of a level. -/
structure Prefixes (base t : Trail) : Prop where
  lits : base.lits.toList <+: t.lits.toList
  starts : base.starts.toList ++ [base.lits.size] <+: t.starts.toList

namespace Prefixes

/-- The level that was open on `base` ends where the literals of `base` do. -/
theorem levelEnd (h : base.Prefixes t) : t.levelEnd base.level = base.lits.size := by
  obtain ⟨later, hlater⟩ := h.starts
  have hget : t.starts.toList[base.level]? = some base.lits.size := by
    rw [← hlater, level, ← Array.length_toList]
    simp
  have hlt : base.level < t.level := by
    simpa [level] using (List.getElem?_eq_some_iff.1 hget).1
  exact Option.some.inj ((levelEnd_eq_of_lt hlt).symm.trans hget)

/-- No operation that leaves the level open touches what is below it. -/
theorem of_shifts (h : base.Prefixes t) (hv : t.Valid) (hs : Op.Shifts t t')
    (hopen : base.level < t'.level) : base.Prefixes t' := by
  cases hs with
  | stays hlits hstarts => exact ⟨hlits ▸ h.lits, hstarts ▸ h.starts⟩
  | opens hopens =>
    refine ⟨hopens ▸ h.lits, ?_⟩
    rw [hopens, openLevel, Array.toList_push]
    exact h.starts.trans (List.prefix_append _ _)
  | pushes l hlits hstarts =>
    refine ⟨?_, hstarts ▸ h.starts⟩
    rw [hlits]
    exact h.lits.trans (List.prefix_append _ _)
  | cuts target hcut =>
    -- the level stays open, so the trail is cut above its start
    rw [hcut, level_rewind] at hopen
    have htarget : base.level < target := Nat.lt_of_lt_of_le hopen (Nat.min_le_left _ _)
    refine ⟨?_, ?_⟩
    · rw [hcut, lits_rewind, List.prefix_take_iff, Array.length_toList]
      exact ⟨h.lits, h.levelEnd ▸ levelEnd_mono hv (Nat.le_of_lt htarget)⟩
    · rw [hcut, toList_starts_rewind, List.prefix_take_iff, List.length_append,
        Array.length_toList]
      exact ⟨h.starts, htarget⟩
  | clears _ hstarts =>
    have hnone : t'.level = 0 := by rw [level, hstarts]; rfl
    omega

end Prefixes

/-- As long as its level is open, the base is at the bottom. -/
theorem OpenedOn.prefixes (hbase : base.Valid) (ht : base.OpenedOn t) : base.Prefixes t := by
  induction ht with
  | opened => exact ⟨List.prefix_rfl, by simp [openLevel]⟩
  | run op ht h hopen ih => exact ih.of_shifts (ht.valid hbase) (Op.shifts_of_run h) hopen

/-! ## What going back restores

The base had its own literals, values and levels. All of them are there again, and the literals
taken back are exactly the others, newest first, with their levels. -/

/-- `taken` and `t'` are what going back from `t` to the level of `base` leaves: the literals, the
level starts, the values and the levels of `base`, and the literals that came after, newest first
and each once, with their levels. -/
structure Restores (base t : Trail) (taken : List (Nat × Lit)) (t' : Trail) : Prop where
  lits : t'.lits = base.lits
  starts : t'.starts = base.starts
  head : t'.head = min t.head base.lits.size
  truth : ∀ l, t'.truth l = base.truth l
  levelOf : ∀ l ∈ base, t'.levelOf l.var = base.levelOf l.var
  taken_eq : taken = (t.lits.toList.drop base.lits.size).reverse.map fun l => (t.levelOf l.var, l)
  once : (taken.map fun p => p.2.var).Nodup

/-- Going back to the base restores it. -/
theorem restores_of_prefixes (hbase : base.Valid) (hv : t.Valid) (h : base.Prefixes t) :
    base.Restores t (t.rewind base.level).1 (t.rewind base.level).2 := by
  have hend := h.levelEnd
  have hv' := valid_rewind hv base.level
  have hlits : (t.rewind base.level).2.lits = base.lits := by
    apply Array.toList_inj.1
    rw [lits_rewind, hend, ← Array.length_toList]
    exact (List.prefix_iff_eq_take.1 h.lits).symm
  have hstarts : (t.rewind base.level).2.starts = base.starts := by
    apply Array.toList_inj.1
    rw [toList_starts_rewind, level, ← Array.length_toList]
    exact (List.prefix_iff_eq_take.1 ((List.prefix_append _ _).trans h.starts)).symm
  have hundone := undone_eq_map t base.level
  rw [hend] at hundone
  refine ⟨hlits, hstarts, by rw [head_rewind, hend], truth_congr hbase hv' hlits,
    fun l hl => levelOf_congr hbase hv' hlits hstarts hl, hundone, ?_⟩
  -- each variable is taken back once, for it stands on the trail once
  rw [hundone, List.map_map]
  have hdrop : ((t.lits.toList.drop base.lits.size).map Lit.var).Nodup :=
    hv.distinct.sublist ((List.drop_sublist _ _).map Lit.var)
  show ((t.lits.toList.drop base.lits.size).reverse.map Lit.var).Nodup
  rw [List.map_reverse, List.nodup_reverse]
  exact hdrop

/-- After any run of operations the trail is valid, its values are the literals on it, an operation
is refused only where its own condition fails, and going back below the current level restores the
trail on which the next level was opened. -/
theorem rewinds_of_reached (ht : t.Reached) :
    t.Valid ∧ (∀ l, (t.value l = .ok .yes ↔ l ∈ t) ∧ (t.value l = .ok .no ↔ l.neg ∈ t)) ∧
      (∀ op : Op, Succeeds (op.run t) ↔ op.Allowed t) ∧
      ∀ d < t.level,
        (∃ base : Trail, base.Reached ∧ base.level = d ∧ base.OpenedOn t) ∧
        ∀ base : Trail, base.Reached → base.level = d → base.OpenedOn t →
          base.Restores t (t.rewind d).1 (t.rewind d).2 := by
  have hv := ht.valid
  refine ⟨hv, fun l => ⟨?_, ?_⟩, Op.succeeds_run_iff t, fun d hd => ⟨ht.exists_base hd, ?_⟩⟩
  · rw [value_eq_ok, hv.truth_yes]
    exact and_iff_right_of_imp hv.lt_varCount
  · rw [value_eq_ok, hv.truth_no]
    exact and_iff_right_of_imp hv.lt_varCount
  · rintro base hbase rfl hopen
    exact restores_of_prefixes hbase.valid hv (hopen.prefixes hbase.valid)

/-- Two levels are taken back at once, down to an empty one; the queue ends in between. -/
theorem rewinds_to_empty_level :
    ∃ base t : Trail, base.Reached ∧ base.starts = #[1] ∧ base.lits = #[⟨⟨0⟩, false⟩] ∧
      t.Reached ∧ base.OpenedOn t ∧ t.starts = #[1, 1, 2] ∧ t.head = 2 ∧
      (t.rewind 1).1 = [(3, ⟨⟨2⟩, true⟩), (2, ⟨⟨1⟩, false⟩)] ∧
      base.Restores t (t.rewind 1).1 (t.rewind 1).2 := by
  have hbase := Reached.empty |>.run .newVar rfl |>.run .newVar rfl |>.run .newVar rfl
    |>.run (.assign ⟨⟨0⟩, false⟩ none) rfl |>.run .openLevel rfl
  have ht := hbase.run .openLevel rfl |>.run (.assign ⟨⟨1⟩, false⟩ none) rfl |>.run .dequeue rfl
    |>.run .dequeue rfl |>.run .openLevel rfl |>.run (.assign ⟨⟨2⟩, true⟩ none) rfl
  have hopen := (@OpenedOn.opened ⟨#[⟨.yes, 0, none⟩, {}, {}], #[⟨⟨0⟩, false⟩], #[1], 0⟩)
    |>.run (.assign ⟨⟨1⟩, false⟩ none) rfl (by decide)
    |>.run .dequeue rfl (by decide) |>.run .dequeue rfl (by decide)
    |>.run .openLevel rfl (by decide) |>.run (.assign ⟨⟨2⟩, true⟩ none) rfl (by decide)
  exact ⟨_, _, hbase, rfl, rfl, ht, hopen, rfl, rfl, rfl,
    ((rewinds_of_reached ht).2.2.2 1 (by decide)).2 _ hbase rfl hopen⟩

end Trail

end CardSat
