import CardSat.Proofs.Trail.Operations

set_option autoImplicit false

/-! # Taking a level back

A level that is opened where nothing waits leaves no trace when it is taken back, whatever was
assigned on it (`same_of_rewind`): the literals, the levels, the queue and all values are what they
were, and so are the levels and reasons of the literals. What stays behind is only the level of the
last value of a variable, which is not read while the variable has no value.

This is what undoing a decision amounts to on the trail, and also what a test for an implied clause
amounts to, which assumes the complements of its literals on a level of its own. So both leave a
solver as it was, up to activities and the order in which variables wait.
-/

namespace CardSat

namespace Trail

variable {t t' t'' : Trail}

/-- Two trails that read the same. -/
structure Same (t t' : Trail) : Prop where
  lits : t'.lits = t.lits
  starts : t'.starts = t.starts
  head : t'.head = t.head
  varCount : t'.varCount = t.varCount
  value : ∀ v, (t'.cellOf v).value = (t.cellOf v).value
  cell : ∀ l ∈ t, t'.cellOf l.var = t.cellOf l.var

/-- The literals have the same values. -/
theorem Same.truth (h : t.Same t') (l : Lit) : t'.truth l = t.truth l := by
  rw [Trail.truth, h.value, Trail.truth]

/-- What is assigned on a new level stands above what was there. -/
theorem prefixes_of_openLevel (hx : t.openLevel.Extends t') : t.Prefixes t' where
  lits := hx.lits
  starts := by
    have hstarts : t'.starts.toList = t.starts.toList ++ [t.lits.size] := by
      rw [hx.starts, openLevel, Array.toList_push]
    exact ⟨[], by rw [hstarts, List.append_nil]⟩

/-- The end of the level below one that was opened. -/
theorem levelEnd_of_openLevel (hx : t.openLevel.Extends t') : t'.levelEnd t.level = t.lits.size :=
  (prefixes_of_openLevel hx).levelEnd

/-- Taking a level back undoes everything that was assigned on it. -/
theorem same_of_rewind (hv : t.Valid) (hidle : t.head = t.lits.size)
    (hx : t.openLevel.Extends t') (hv' : t'.Valid) (hq : t'.Queued) :
    t.Same (t'.rewind t.level).2 := by
  have hr := restores_of_prefixes hv hv' (prefixes_of_openLevel hx)
  have hlevel : t'.level = t.level + 1 := by rw [hx.level_eq, level_openLevel]
  refine ⟨hr.lits, hr.starts, ?_, ?_, fun v => hr.truth (v.lit false), fun l hl => ?_⟩
  · -- the queue ends behind the start of the level, so it is cut there
    have hstart : t'.levelStart (t.level + 1) = t.lits.size := levelEnd_of_openLevel hx
    rw [hr.head, hidle]
    rw [Queued, hlevel, hstart] at hq
    exact Nat.min_eq_right hq
  · rw [varCount_rewind, hx.varCount]
    rfl
  · -- the cells of literals that stay are read as before the level was opened
    have hmem : l ∈ (t'.rewind t.level).2 := by rwa [mem_def, hr.lits]
    exact (cellOf_rewind_of_mem hv' hmem).trans (hx.cell l hl)

end Trail

end CardSat
