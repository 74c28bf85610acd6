import CardSat.Trail
import CardSat.Proofs.Checked
import Mathlib.Data.List.Nodup
import Mathlib.Data.List.TakeDrop
import Mathlib.Tactic.Push

set_option autoImplicit false

/-! # What a trail says

`Trail.truth`, `Trail.levelOf` and `Trail.reasonOf` read a trail without refusing unknown variables,
and `l ∈ t` says that `l` is one of the literals that a trail makes true. `Trail.Valid` is the
invariant between these readings: every variable stands on the trail at most once, its value is the
side on which it stands there, and its recorded level is the number of levels that had begun.

The operations `assign`, `openLevel`, `rewind` and `dequeue` keep it (`valid_assign`,
`valid_openLevel`, `valid_rewind`, `valid_dequeue`), and each has lemmas saying what it does to the
readings.

## Conventions

A trail holds the same thing twice: the list of its literals, and a cell for each variable. Proofs
use the list. The value of a literal is read as membership of it or of its complement
(`Valid.truth_no`, `Valid.truth_unset`), and a level as a position (`levelOf_le_iff_mem`), so that
an argument about the trail is one about a list and its prefixes. The cells come in where the model
reads them: each reading that can be refused has a lemma with `eq_ok` in its name, which says when
it is not and what it gives.

What an operation does is said once, by a structure between the old trail and the new one:
`Assigned` for one literal more, `Extends` for any number of them on the same level. Everything
later is proved from these structures, and the operations are not opened again.

The level of a variable without a value is that of its last value. No reading of the model looks at
it, but it is not cleared, and two trails with the same literals may differ in it.
-/

namespace CardSat

/-- A variable has two literals. -/
theorem Lit.eq_or_eq_neg {l m : Lit} (h : m.var = l.var) : m = l ∨ m = l.neg := by
  rcases l with ⟨u, a⟩
  rcases m with ⟨v, b⟩
  obtain rfl : v = u := h
  cases a <;> cases b <;> simp [Lit.neg]

/-- A literal has a value if its variable does. -/
theorem Truth.ofSide_eq_unset {t : Truth} {b : Bool} : t.ofSide b = unset ↔ t = unset := by
  cases b <;> cases t <;> simp [ofSide, neg]

/-- A literal is true if the value of its variable is its side. -/
theorem Truth.ofSide_ofBool (a b : Bool) :
    (ofBool a).ofSide b = .yes ↔ b = !a := by
  cases a <;> cases b <;> decide

namespace Trail

/-! ## Readings

The readings are total. An unknown variable has no value, the ground level and no reason. -/

instance : Membership Lit Trail := ⟨fun t l => l ∈ t.lits.toList⟩

/-- The literals of a trail are those of its list. -/
theorem mem_def {t : Trail} {l : Lit} : l ∈ t ↔ l ∈ t.lits.toList := Iff.rfl

/-- The cell of a variable; an unknown variable counts as unassigned. -/
def cellOf (t : Trail) (v : Var) : Cell := t.cells.getD v.index {}

/-- The value of a literal. -/
def truth (t : Trail) (l : Lit) : Truth := (t.cellOf l.var).value.ofSide l.negated

/-- The level of the last value of a variable. -/
def levelOf (t : Trail) (v : Var) : Nat := (t.cellOf v).level

/-- The constraint that forced a variable. -/
def reasonOf (t : Trail) (v : Var) : Option Handle := (t.cellOf v).reason

/-- The literals that have been propagated. -/
def done (t : Trail) : List Lit := t.lits.toList.take t.head

/-- The cell of a known variable is found. -/
theorem cell_eq_ok {t : Trail} {v : Var} {c : Cell} :
    t.cell v = .ok c ↔ v.index < t.varCount ∧ t.cellOf v = c := by
  rw [cell, fetch_eq_ok, cellOf, varCount, Array.getElem?_eq_some_iff]
  constructor
  · rintro ⟨h, rfl⟩
    exact ⟨h, by simp [Array.getD, h]⟩
  · rintro ⟨h, rfl⟩
    exact ⟨h, by simp [Array.getD, h]⟩

/-- The value of a literal of a known variable is found. -/
theorem value_eq_ok {t : Trail} {l : Lit} {x : Truth} :
    t.value l = .ok x ↔ l.var.index < t.varCount ∧ t.truth l = x := by
  simp only [value, bind_eq_ok, cell_eq_ok, pure_eq_ok, truth]
  constructor
  · rintro ⟨_, ⟨h, rfl⟩, rfl⟩
    exact ⟨h, rfl⟩
  · rintro ⟨h, rfl⟩
    exact ⟨_, ⟨h, rfl⟩, rfl⟩

/-- Asking whether a literal is true. -/
theorem isTrue_eq_ok {t : Trail} {l : Lit} {b : Bool} (h : t.isTrue l = .ok b) :
    l.var.index < t.varCount ∧ b = decide (t.truth l = .yes) := by
  simp only [isTrue, bind_eq_ok, value_eq_ok, pure_eq_ok] at h
  obtain ⟨x, ⟨hv, rfl⟩, rfl⟩ := h
  exact ⟨hv, by simp [BEq.beq]⟩

/-- Asking whether a literal is false. -/
theorem isFalse_eq_ok {t : Trail} {l : Lit} {b : Bool} (h : t.isFalse l = .ok b) :
    l.var.index < t.varCount ∧ b = decide (t.truth l = .no) := by
  simp only [isFalse, bind_eq_ok, value_eq_ok, pure_eq_ok] at h
  obtain ⟨x, ⟨hv, rfl⟩, rfl⟩ := h
  exact ⟨hv, by simp [BEq.beq]⟩

/-- Asking whether a variable has no value. -/
theorem isUnset_eq_ok {t : Trail} {v : Var} {b : Bool} (h : t.isUnset v = .ok b) :
    v.index < t.varCount ∧ b = (t.cellOf v).value.isUnset := by
  simp only [isUnset, bind_eq_ok, cell_eq_ok, pure_eq_ok] at h
  obtain ⟨x, ⟨hv, rfl⟩, rfl⟩ := h
  exact ⟨hv, rfl⟩

/-- The literals are found by their positions. -/
theorem litAt_eq_ok {t : Trail} {i : Nat} {l : Lit} :
    t.litAt i = .ok l ↔ t.lits.toList[i]? = some l := by
  rw [litAt, fetch_eq_ok, Array.getElem?_toList]

/-- The complement has the opposite value. -/
@[simp] theorem truth_neg (t : Trail) (l : Lit) : t.truth l.neg = (t.truth l).neg := by
  simp only [truth, Lit.neg_var, Lit.neg_negated]
  cases l.negated <;> cases (t.cellOf l.var).value <;> rfl

/-- A variable has no value if its literals have none. -/
theorem isUnset_iff {t : Trail} {l : Lit} :
    (t.cellOf l.var).value.isUnset = true ↔ t.truth l = .unset := by
  rw [truth, Truth.ofSide_eq_unset, Truth.isUnset, beq_iff_eq]

/-- An unknown variable has no value. -/
theorem varCount_lt_of_truth {t : Trail} {l : Lit} (h : t.truth l ≠ .unset) :
    l.var.index < t.varCount := by
  by_contra hlt
  apply h
  rw [truth, cellOf, Array.getD, dif_neg (by simpa [varCount] using hlt)]
  cases l.negated <;> rfl

/-! ## The invariant

`Valid` relates the cells to the list. `Queued` is apart: it says that what waits to be propagated
is of the current level, which is so in a search, but not after a level was opened with literals
waiting. -/

/-- The literals, values, levels and level starts of a trail fit together. -/
structure Valid (t : Trail) : Prop where
  distinct : (t.lits.toList.map Lit.var).Nodup
  truth_yes : ∀ l, t.truth l = .yes ↔ l ∈ t
  level_eq : ∀ i l, t.lits.toList[i]? = some l →
    t.levelOf l.var = t.starts.toList.countP (· ≤ i)
  sorted : t.starts.toList.Pairwise (· ≤ ·)
  starts_le : ∀ s ∈ t.starts.toList, s ≤ t.lits.size
  head_le : t.head ≤ t.lits.size

/-- The literals that wait to be propagated belong to the current level. -/
def Queued (t : Trail) : Prop := t.levelStart t.level ≤ t.head

/-- The empty trail is valid. -/
theorem valid_empty : Valid empty where
  distinct := by simp [empty]
  truth_yes := by
    intro l
    simp only [empty, mem_def, truth, cellOf]
    cases l.negated <;> simp [Truth.ofSide, Truth.neg]
  level_eq := by simp [empty]
  sorted := by simp [empty]
  starts_le := by simp [empty]
  head_le := by simp [empty]

/-- Nothing waits on the empty trail. -/
theorem queued_empty : Queued empty := by simp [Queued, empty, level, levelStart]

namespace Valid

variable {t : Trail}

/-- A literal is false if its complement is on the trail. -/
theorem truth_no (h : t.Valid) (l : Lit) : t.truth l = .no ↔ l.neg ∈ t := by
  rw [← h.truth_yes, truth_neg]
  cases t.truth l <;> simp [Truth.neg]

/-- A literal has no value if neither it nor its complement is on the trail. -/
theorem truth_unset (h : t.Valid) (l : Lit) :
    t.truth l = .unset ↔ l ∉ t ∧ l.neg ∉ t := by
  rw [← h.truth_yes, ← h.truth_no]
  cases t.truth l <;> simp

/-- A literal with a value stands on the trail, or its negation does. -/
theorem exists_mem_of_truth (h : t.Valid) {l : Lit} (hl : t.truth l ≠ .unset) :
    ∃ m ∈ t, m.var = l.var := by
  by_contra hno
  exact hl ((h.truth_unset l).2 ⟨fun hm => hno ⟨l, hm, rfl⟩, fun hm => hno ⟨l.neg, hm, rfl⟩⟩)

/-- The literals on a valid trail are of known variables. -/
theorem lt_varCount (h : t.Valid) {l : Lit} (hl : l ∈ t) : l.var.index < t.varCount :=
  varCount_lt_of_truth (by rw [(h.truth_yes l).2 hl]; decide)

/-- A variable stands on the trail at most once. -/
theorem eq_of_var_eq (h : t.Valid) {l m : Lit} (hl : l ∈ t) (hm : m ∈ t)
    (hv : l.var = m.var) : l = m :=
  List.inj_on_of_nodup_map h.distinct hl hm hv

/-- Two complementary literals are not both on a valid trail. -/
theorem neg_not_mem (h : t.Valid) {l : Lit} (hl : l ∈ t) : l.neg ∉ t := by
  intro hn
  exact Lit.neg_ne l (h.eq_of_var_eq hn hl rfl)

/-- Asking whether a literal is true, on a valid trail. -/
theorem isTrue_ok (h : t.Valid) {l : Lit} {b : Bool} (hb : t.isTrue l = .ok b) :
    b = true ↔ l ∈ t := by
  rw [(isTrue_eq_ok hb).2, decide_eq_true_iff, h.truth_yes]

/-- Asking whether a literal is false, on a valid trail. -/
theorem isFalse_ok (h : t.Valid) {l : Lit} {b : Bool} (hb : t.isFalse l = .ok b) :
    b = true ↔ l.neg ∈ t := by
  rw [(isFalse_eq_ok hb).2, decide_eq_true_iff, h.truth_no]

/-- No literal before position `i` has the variable of the one there. -/
theorem var_ne_of_mem_take (h : t.Valid) {i : Nat} {l m : Lit}
    (hi : t.lits.toList[i]? = some l) (hm : m ∈ t.lits.toList.take i) : m.var ≠ l.var := by
  intro he
  obtain ⟨j, hj⟩ := List.mem_iff_getElem?.1 hm
  rw [List.getElem?_take] at hj
  split at hj
  next hlt =>
      obtain rfl := h.eq_of_var_eq (List.mem_of_getElem? hj) (List.mem_of_getElem? hi) he
      have := (List.getElem?_inj (List.getElem?_eq_some_iff.1 hj).1 h.distinct.of_map).1
        (hj.trans hi.symm)
      omega
  next => cases hj

/-! ### Levels -/

/-- No literal is of a level above the current one. -/
theorem levelOf_le (h : t.Valid) {l : Lit} (hl : l ∈ t) : t.levelOf l.var ≤ t.level := by
  obtain ⟨i, hi⟩ := List.mem_iff_getElem?.1 hl
  rw [h.level_eq i l hi, level, ← Array.length_toList]
  exact List.countP_le_length

/-- Levels do not fall along the trail. -/
theorem levelOf_mono (h : t.Valid) {i j : Nat} {l m : Lit} (hij : i ≤ j)
    (hl : t.lits.toList[i]? = some l) (hm : t.lits.toList[j]? = some m) :
    t.levelOf l.var ≤ t.levelOf m.var := by
  rw [h.level_eq i l hl, h.level_eq j m hm]
  exact List.countP_mono_left (by intro s _ hs; simp only [decide_eq_true_eq] at hs ⊢; omega)

/-- Literals that came earlier are not of a higher level. -/
theorem levelOf_le_of_mem_take (h : t.Valid) {i : Nat} {l m : Lit}
    (hl : l ∈ t.lits.toList.take i) (hm : t.lits.toList[i]? = some m) :
    t.levelOf l.var ≤ t.levelOf m.var := by
  obtain ⟨j, hj⟩ := List.mem_iff_getElem?.1 hl
  rw [List.getElem?_take] at hj
  split at hj
  · exact h.levelOf_mono (by omega) hj hm
  · cases hj

end Valid

/-- The literals up to position `i` are those before it and the one there. -/
theorem mem_take_succ {t : Trail} {i : Nat} {l m : Lit} (hi : t.lits.toList[i]? = some l) :
    m ∈ t.lits.toList.take (i + 1) ↔ m ∈ t.lits.toList.take i ∨ m = l := by
  rw [List.take_add_one, hi, Option.toList_some, List.mem_append, List.mem_singleton]

/-- A variable other than that of position `i` was assigned before it. -/
theorem exists_mem_take {t : Trail} {i : Nat} {l : Lit} {v : Var} {Q : Prop}
    (hi : t.lits.toList[i]? = some l) (hv : v ≠ l.var)
    (h : ∃ m ∈ t.lits.toList.take (i + 1), m.var = v ∧ Q) :
    ∃ m ∈ t.lits.toList.take i, m.var = v ∧ Q := by
  obtain ⟨m, hm, rfl, hq⟩ := h
  rcases (mem_take_succ hi).1 hm with hm | rfl
  · exact ⟨m, hm, rfl, hq⟩
  · exact absurd rfl hv

/-- In a sorted list of bounds, at most `b` are no greater than `i` when the bound after the
first `b` exceeds `i`. -/
theorem countP_le_iff {s : List Nat} (hs : s.Pairwise (· ≤ ·)) {b x i : Nat}
    (hx : s[b]? = some x) : s.countP (· ≤ i) ≤ b ↔ i < x := by
  induction s generalizing b with
  | nil => simp at hx
  -- the list is sorted, so the entries up to `i` are its first ones
  | cons y s ih =>
      rw [List.pairwise_cons] at hs
      cases b with
      | zero =>
          obtain rfl : y = x := by simpa using hx
          constructor
          · intro h
            by_contra hlt
            rw [List.countP_cons_of_pos (by simpa using hlt)] at h
            omega
          · intro h
            rw [Nat.le_zero, List.countP_eq_zero]
            intro a ha
            rcases List.mem_cons.1 ha with rfl | ha
            · simpa using h
            · have := hs.1 a ha
              simp only [decide_eq_true_eq]
              omega
      | succ b =>
          have hx' : s[b]? = some x := by simpa using hx
          have hyx : y ≤ x := hs.1 x (List.mem_of_getElem? hx')
          by_cases hy : y ≤ i
          · rw [List.countP_cons_of_pos (by simpa using hy), Nat.add_le_add_iff_right]
            exact ih hs.2 hx'
          · rw [List.countP_cons_of_neg (by simpa using hy)]
            have := (ih hs.2 hx').2 (by omega)
            constructor <;> intro <;> omega

namespace Valid

variable {t : Trail}

/-- The literals of the levels up to `b` are those before the end of level `b`. -/
theorem levelOf_le_iff (h : t.Valid) {b i : Nat} {l : Lit} (hl : t.lits.toList[i]? = some l) :
    t.levelOf l.var ≤ b ↔ i < t.levelEnd b := by
  have hi : i < t.lits.size := by
    have := (List.getElem?_eq_some_iff.1 hl).1
    simpa using this
  rw [levelEnd, Array.getD]
  split
  next hb =>
      rw [h.level_eq i l hl]
      exact countP_le_iff h.sorted (by simp)
  next hb =>
      have := h.levelOf_le (List.mem_of_getElem? hl)
      rw [level] at this
      constructor <;> intro <;> omega

/-- The literals of the levels up to `b` are those before the end of level `b`. -/
theorem levelOf_le_iff_mem (h : t.Valid) {b : Nat} {l : Lit} (hl : l ∈ t) :
    t.levelOf l.var ≤ b ↔ l ∈ t.lits.toList.take (t.levelEnd b) := by
  obtain ⟨i, hi⟩ := List.mem_iff_getElem?.1 hl
  rw [h.levelOf_le_iff hi]
  constructor
  · intro hlt
    exact List.mem_iff_getElem?.2 ⟨i, by rw [List.getElem?_take, if_pos hlt, hi]⟩
  · intro hmem
    obtain ⟨j, hj⟩ := List.mem_iff_getElem?.1 hmem
    rw [List.getElem?_take] at hj
    split at hj
    next hlt =>
        have hij : i = j :=
          (List.getElem?_inj (List.getElem?_eq_some_iff.1 hi).1 h.distinct.of_map).1 (by rw [hi, hj])
        omega
    next => cases hj

/-- A level ends on the trail. -/
theorem levelEnd_le (h : t.Valid) (b : Nat) : t.levelEnd b ≤ t.lits.size := by
  rw [levelEnd, Array.getD]
  split
  · exact h.starts_le _ (by simp)
  · exact Nat.le_refl _

/-- Every literal that does not wait is propagated; those below the current level are. -/
theorem mem_done_of_levelOf_lt (h : t.Valid) (hq : t.Queued) {l : Lit} (hl : l ∈ t)
    (hlt : t.levelOf l.var < t.level) : l ∈ t.done := by
  have hb : t.levelOf l.var ≤ t.level - 1 := by omega
  rw [h.levelOf_le_iff_mem hl] at hb
  have hs : t.levelStart t.level = t.levelEnd (t.level - 1) := by
    obtain ⟨b, hb⟩ : ∃ b, t.level = b + 1 := ⟨t.level - 1, by omega⟩
    rw [hb]; rfl
  rw [Queued, hs] at hq
  exact (List.take_subset_take_left _ hq) hb

end Valid

/-! ## Making literals true

One literal is added at the end of the list, with the current level and some reason. Nothing else
changes, which is said for each reading. -/

/-- What `assign` does: `l` is put at the end of the trail, and only the cell of its variable
changes. -/
structure Assigned (t : Trail) (l : Lit) (reason : Option Handle) (t' : Trail) : Prop where
  bound : l.var.index < t.varCount
  unset : t.truth l = .unset
  lits : t'.lits.toList = t.lits.toList ++ [l]
  starts : t'.starts = t.starts
  head : t'.head = t.head
  varCount : t'.varCount = t.varCount
  cell_ne : ∀ v, v ≠ l.var → t'.cellOf v = t.cellOf v
  cell_eq : t'.cellOf l.var = ⟨.ofBool !l.negated, t.level, reason⟩

/-- Writing one cell changes no other. -/
theorem cellOf_write {t : Trail} {v u : Var} {c : Cell} (hv : v.index < t.varCount) :
    (write t.cells v c).getD u.index {} = if u = v then c else t.cellOf u := by
  rw [write, cellOf, Array.getD_eq_getD_getElem?, Array.getD_eq_getD_getElem?,
    Array.getElem?_setIfInBounds]
  have huv : v.index = u.index ↔ u = v := by
    cases u; cases v; simp [eq_comm]
  simp only [huv]
  split
  · rw [if_pos (show v.index < t.cells.size from hv)]; rfl
  · rfl

/-- An assignment that is not refused adds a literal of a known variable without a value. -/
theorem assigned_of_assign {t t' : Trail} {l : Lit} {r : Option Handle}
    (h : t.assign l r = .ok t') : Assigned t l r t' := by
  simp only [assign, bind_eq_ok, cell_eq_ok, require_eq_ok, pure_eq_ok] at h
  obtain ⟨_, ⟨hv, rfl⟩, _, hu, rfl⟩ := h
  refine ⟨hv, isUnset_iff.1 hu, by simp, rfl, rfl, by simp [varCount, write], ?_, ?_⟩
  · intro v hne
    exact (cellOf_write hv).trans (if_neg hne)
  · exact (cellOf_write hv).trans (if_pos rfl)

namespace Assigned

variable {t t' : Trail} {l : Lit} {r : Option Handle}

/-- The literals after an assignment. -/
theorem mem_iff (h : Assigned t l r t') {m : Lit} : m ∈ t' ↔ m ∈ t ∨ m = l := by
  rw [mem_def, h.lits, List.mem_append, List.mem_singleton, mem_def]

/-- No level is opened. -/
theorem level_eq (h : Assigned t l r t') : t'.level = t.level := by rw [level, h.starts, level]

/-- There is one literal more. -/
theorem size_eq (h : Assigned t l r t') : t'.lits.size = t.lits.size + 1 := by
  rw [← Array.length_toList, h.lits, List.length_append, Array.length_toList]; rfl

/-- The new literal is of the current level. -/
theorem levelOf_self (h : Assigned t l r t') : t'.levelOf l.var = t.level := by
  rw [levelOf, h.cell_eq]

/-- The new literal has the reason given. -/
theorem reasonOf_self (h : Assigned t l r t') : t'.reasonOf l.var = r := by
  rw [reasonOf, h.cell_eq]

/-- Other variables have the same values. -/
theorem truth_of_ne (h : Assigned t l r t') {m : Lit} (hm : m.var ≠ l.var) :
    t'.truth m = t.truth m := by
  rw [truth, h.cell_ne _ hm, truth]

/-- The variable of the new literal had no value before. -/
theorem var_ne_of_mem (h : Assigned t l r t') (hv : t.Valid) {m : Lit} (hm : m ∈ t) :
    m.var ≠ l.var := by
  intro he
  have hu := h.unset
  rw [truth, Truth.ofSide_eq_unset, ← he] at hu
  have := (hv.truth_yes m).2 hm
  rw [truth, hu] at this
  cases hneg : m.negated <;> simp [hneg, Truth.ofSide, Truth.neg] at this

/-- The other literals are of the same levels. -/
theorem levelOf_of_mem (h : Assigned t l r t') (hv : t.Valid) {m : Lit} (hm : m ∈ t) :
    t'.levelOf m.var = t.levelOf m.var := by
  rw [levelOf, h.cell_ne _ (h.var_ne_of_mem hv hm), levelOf]

/-- The other literals have the same reasons. -/
theorem reasonOf_of_mem (h : Assigned t l r t') (hv : t.Valid) {m : Lit} (hm : m ∈ t) :
    t'.reasonOf m.var = t.reasonOf m.var := by
  rw [reasonOf, h.cell_ne _ (h.var_ne_of_mem hv hm), reasonOf]

/-- The variable of the new literal has the value that makes it true. -/
theorem truth_self (h : Assigned t l r t') {m : Lit} (hm : m.var = l.var) :
    t'.truth m = .yes ↔ m = l := by
  rw [truth, hm, h.cell_eq, Truth.ofSide_ofBool, Bool.not_not]
  constructor
  · intro hn
    cases m; cases l
    simp_all
  · rintro rfl
    rfl

/-- An assignment keeps the trail valid. -/
theorem valid (h : Assigned t l r t') (hv : t.Valid) : t'.Valid where
  distinct := by
    rw [h.lits, List.map_append, List.nodup_append]
    refine ⟨hv.distinct, by simp, ?_⟩
    rintro v hmv u hu rfl
    obtain ⟨m, hm, rfl⟩ := List.mem_map.1 hmv
    exact h.var_ne_of_mem hv hm (by simpa using hu)
  truth_yes := by
    intro m
    rw [h.mem_iff]
    by_cases hm : m.var = l.var
    · rw [h.truth_self hm]
      constructor
      · exact Or.inr
      · rintro (hmt | rfl)
        · exact absurd hm (h.var_ne_of_mem hv hmt)
        · rfl
    · rw [h.truth_of_ne hm, hv.truth_yes]
      constructor
      · exact Or.inl
      · rintro (hmt | rfl)
        · exact hmt
        · exact absurd rfl hm
  level_eq := by
    intro i m hi
    rw [h.lits, List.getElem?_append] at hi
    split at hi
    next hlt =>
        rw [h.levelOf_of_mem hv (List.mem_of_getElem? hi), hv.level_eq i m hi, h.starts]
    -- the new literal is the last one, and all levels have begun before it
    next hge =>
        have hi0 : i - t.lits.toList.length = 0 := by
          have := (List.getElem?_eq_some_iff.1 hi).1
          simpa using this
        rw [hi0] at hi
        obtain rfl : l = m := by simpa using hi
        rw [h.levelOf_self, h.starts, level, ← Array.length_toList]
        refine (List.countP_eq_length.2 ?_).symm
        intro s hs
        have := hv.starts_le s hs
        rw [Array.length_toList] at hge
        simp only [decide_eq_true_eq]
        omega
  sorted := h.starts ▸ hv.sorted
  starts_le := by
    intro s hs
    rw [h.starts] at hs
    rw [h.size_eq]
    exact Nat.le_succ_of_le (hv.starts_le s hs)
  head_le := by
    rw [h.head, h.size_eq]
    exact Nat.le_succ_of_le hv.head_le

/-- An assignment leaves what waits on the current level. -/
theorem queued (h : Assigned t l r t') (hq : t.Queued) : t'.Queued := by
  unfold Queued at *
  rw [h.head, h.level_eq]
  cases hl : t.level with
  | zero => simp [levelStart]
  | succ b =>
      rw [hl] at hq
      have hb : b < t.starts.size := by rw [level] at hl; omega
      have he : t'.levelEnd b = t.levelEnd b := by
        simp [levelEnd, Array.getD, h.starts, hb]
      simpa only [levelStart, he] using hq

end Assigned

/-- A trail that goes on where another one ends, on the same level. -/
structure Extends (t t' : Trail) : Prop where
  lits : t.lits.toList <+: t'.lits.toList
  starts : t'.starts = t.starts
  varCount : t'.varCount = t.varCount
  cell : ∀ l ∈ t, t'.cellOf l.var = t.cellOf l.var
  free : ∀ v, (∀ l ∈ t', l.var ≠ v) → t'.cellOf v = t.cellOf v

namespace Extends

variable {t t' t'' : Trail}

/-- Nothing is added. -/
theorem refl (t : Trail) : t.Extends t :=
  ⟨List.prefix_rfl, rfl, rfl, fun _ _ => rfl, fun _ _ => rfl⟩

/-- No literal is lost. -/
theorem mem (h : t.Extends t') {l : Lit} (hl : l ∈ t) : l ∈ t' := h.lits.subset hl

/-- Adding more. -/
theorem trans (h : t.Extends t') (h' : t'.Extends t'') : t.Extends t'' where
  lits := h.lits.trans h'.lits
  starts := h'.starts.trans h.starts
  varCount := h'.varCount.trans h.varCount
  cell l hl := (h'.cell l (h.mem hl)).trans (h.cell l hl)
  free v hv := (h'.free v hv).trans (h.free v fun l hl => hv l (h'.mem hl))

/-- No level is opened. -/
theorem level_eq (h : t.Extends t') : t'.level = t.level := by rw [level, h.starts, level]

/-- The literals keep their levels. -/
theorem levelOf (h : t.Extends t') {l : Lit} (hl : l ∈ t) :
    t'.levelOf l.var = t.levelOf l.var := by
  rw [Trail.levelOf, h.cell l hl, Trail.levelOf]

/-- The literals keep their reasons. -/
theorem reasonOf (h : t.Extends t') {l : Lit} (hl : l ∈ t) :
    t'.reasonOf l.var = t.reasonOf l.var := by
  rw [Trail.reasonOf, h.cell l hl, Trail.reasonOf]

/-- What came before a position is the same. -/
theorem take_eq (h : t.Extends t') {i : Nat} (hi : i ≤ t.lits.size) :
    t'.lits.toList.take i = t.lits.toList.take i := by
  obtain ⟨s, hs⟩ := h.lits
  rw [← hs, List.take_append_of_le_length (by simpa using hi)]

/-- As long as none of them is propagated, new literals are not done. -/
theorem done_eq (h : t.Extends t') (hv : t.Valid) (hh : t'.head = t.head) : t'.done = t.done := by
  rw [done, hh, h.take_eq hv.head_le, done]

/-- The literals keep their positions. -/
theorem getElem? (h : t.Extends t') {i : Nat} {l : Lit} (hi : t.lits.toList[i]? = some l) :
    t'.lits.toList[i]? = some l := by
  obtain ⟨s, hs⟩ := h.lits
  rw [← hs, List.getElem?_append_left (List.getElem?_eq_some_iff.1 hi).1, hi]

/-- The literals that were there stand before those that came after. -/
theorem mem_take (h : t.Extends t') {l : Lit} (hl : l ∈ t) {i : Nat} (hi : t.lits.size ≤ i) :
    l ∈ t'.lits.toList.take i := by
  obtain ⟨j, hj⟩ := List.mem_iff_getElem?.1 hl
  have hlt : j < t.lits.size := by simpa using (List.getElem?_eq_some_iff.1 hj).1
  refine List.mem_iff_getElem?.2 ⟨j, ?_⟩
  rw [List.getElem?_take, if_pos (by omega), h.getElem? hj]

/-- What stands behind the old end is new. -/
theorem not_mem_of_size_le (h : t.Extends t') (hv : t'.Valid) {i : Nat} {m : Lit}
    (hi : t'.lits.toList[i]? = some m) (hle : t.lits.size ≤ i) : m ∉ t := by
  intro hm
  obtain ⟨j, hj⟩ := List.mem_iff_getElem?.1 hm
  have hlt : j < t.lits.size := by simpa using (List.getElem?_eq_some_iff.1 hj).1
  have hj' := h.getElem? hj
  have := (List.getElem?_inj (List.getElem?_eq_some_iff.1 hj').1 hv.distinct.of_map).1
    (hj'.trans hi.symm)
  omega

/-- New literals are of the current level. -/
theorem levelOf_of_not_mem (h : t.Extends t') (hv : t.Valid) (hv' : t'.Valid) {m : Lit}
    (hm : m ∈ t') (hno : m ∉ t) : t'.levelOf m.var = t.level := by
  obtain ⟨i, hi⟩ := List.mem_iff_getElem?.1 hm
  have hle : t.lits.size ≤ i := by
    by_contra hlt
    refine hno (List.mem_of_mem_take (i := t.lits.size) ?_)
    rw [← h.take_eq (Nat.le_refl _)]
    exact List.mem_iff_getElem?.2 ⟨i, by rw [List.getElem?_take, if_pos (by omega), hi]⟩
  rw [hv'.level_eq i m hi, h.starts, List.countP_eq_length.2 fun s hs => ?_, Array.length_toList,
    level]
  exact decide_eq_true (Nat.le_trans (hv.starts_le s hs) hle)

end Extends

/-- One literal more is an extension. -/
theorem Assigned.extends {t t' : Trail} {l : Lit} {r : Option Handle} (h : Assigned t l r t')
    (hv : t.Valid) : t.Extends t' where
  lits := ⟨[l], h.lits.symm⟩
  starts := h.starts
  varCount := h.varCount
  cell _ hm := h.cell_ne _ (h.var_ne_of_mem hv hm)
  free _ hv := h.cell_ne _ fun heq => hv l (h.mem_iff.2 (Or.inr rfl)) heq.symm

/-! ## Opening a level

The new level begins where the list ends. If literals waited, they would now be on a level below the
current one. -/

/-- The level is one higher. -/
@[simp] theorem level_openLevel (t : Trail) : t.openLevel.level = t.level + 1 := by
  simp [openLevel, level]

/-- A new level keeps the trail valid. -/
theorem valid_openLevel {t : Trail} (hv : t.Valid) : t.openLevel.Valid where
  distinct := hv.distinct
  truth_yes := hv.truth_yes
  level_eq := by
    intro i l hi
    have hlt : i < t.lits.size := by
      have := (List.getElem?_eq_some_iff.1 hi).1
      rwa [Array.length_toList] at this
    have : t.levelOf l.var = _ := hv.level_eq i l hi
    simp only [openLevel, Array.toList_push, List.countP_append]
    rw [List.countP_singleton, if_neg (by simpa using hlt), Nat.add_zero]
    exact this
  sorted := by
    simp only [openLevel, Array.toList_push, List.pairwise_append]
    refine ⟨hv.sorted, by simp, ?_⟩
    intro s hs u hu
    rw [List.mem_singleton.1 hu]
    exact hv.starts_le s hs
  starts_le := by
    intro s hs
    simp only [openLevel, Array.toList_push, List.mem_append, List.mem_singleton] at hs
    rcases hs with hs | rfl
    · exact hv.starts_le s hs
    · exact Nat.le_refl _
  head_le := hv.head_le

/-- If nothing waits, nothing waits below the new level. -/
theorem queued_openLevel {t : Trail} (hh : t.head = t.lits.size) : t.openLevel.Queued := by
  simp [Queued, openLevel, level, levelStart, levelEnd, hh]

end Trail

end CardSat
