import CardSat.Proofs.Lessons

set_option autoImplicit false

/-! # Analyses leave no marks behind

A conflict analysis marks the variables of the clause that it derives, and the search for redundant
literals marks what it has explored; the search for failed assumptions marks what it still has to
trace. All of these marks are cleared again, whichever way an analysis ends (`unmarked_of_analysis`):
on the walk down the trail each marked literal loses its mark when it is passed, the literals of the
derived clause keep theirs until it is minimised, and a search lists what it has touched.

The walk needs a reason for every literal that it resolves. Where the levels begin with their
decisions it never lacks one; in any case it stops above the start of the trail.
-/

namespace CardSat

variable {n : Network} {failed : Handle}

/-- A conflict has a part in the current level, so there is a true literal of this level. -/
theorem Network.Conflict.exists_mem (h : n.Conflict failed) :
    ∃ p ∈ n.trail, n.trail.levelOf p.var = n.trail.level := by
  obtain ⟨c, -, hfalse, l, hl, hmem, hlevel⟩ := h
  cases ha : c.isAtMost with
  | true => exact ⟨l, hmem ha, hlevel⟩
  | false => exact ⟨l.neg, hfalse.clause ha l hl, hlevel⟩

namespace Analysis

variable {a : Analysis}

/-- The first `k` variables have marks, and no variable is marked. -/
structure Unmarked (a : Analysis) (k : Nat) : Prop where
  covers : a.marks.Covers k
  clean : a.marks.Clean

/-- The analysis of a conflict either leaves no marks behind or comes to a decision in the middle of
the current level. -/
theorem unmarked_of_analyze (hs : n.Justified) (ha : a.Unmarked n.trail.varCount)
    (hconf : n.Conflict failed) :
    (∃ x a', a.analyze n.store n.trail failed = .ok (x, a') ∧ a'.Unmarked n.trail.varCount) ∨
    ∃ l, n.trail.Misplaced l ∧
      a.analyze n.store n.trail failed = .error (.impliedWithoutReason l) := by
  -- the marks do not depend on what the constraints mean, so no world has to be looked at
  have hr : n.Sound fun _ => False := ⟨fun _ => False.elim, fun _ => False.elim⟩
  refine (outcome_of_analyze hs hconf ha.clean ha.covers).imp_left ?_
  rintro ⟨x, a', hx, -, -⟩
  obtain ⟨-, hclean⟩ := lesson_of_analyze hs hr hconf ha.clean hx
  exact ⟨x, a', hx, covers_of_analyze ha.covers hx, hclean⟩

/-- Tracing a true literal back to the decisions leaves no marks behind. -/
theorem unmarked_of_failedAssumptions (hs : n.Justified) (ha : a.Unmarked n.trail.varCount)
    {p : Lit} (hp : p ∈ n.trail) :
    ∃ found a', a.failedAssumptions n.store n.trail p = .ok (found, a') ∧
      a'.Unmarked n.trail.varCount := by
  have hr : n.Sound fun _ => False := ⟨fun _ => False.elim, fun _ => False.elim⟩
  obtain ⟨⟨found, a'⟩, hf⟩ := succeeds_failedAssumptions hs ha.covers (hs.trail.lt_varCount hp)
  obtain ⟨hclean, -⟩ := blamed_of_failedAssumptions hs hr ha.clean hp hf
  exact ⟨found, a', hf, covers_of_failedAssumptions ha.covers hf, hclean⟩

/-- Where all reasons explain their literals, every analysis leaves no marks behind: that of any
conflict, whichever redundant literals are left out, and the one that traces a true literal back to
the decisions. No analysis gets below the start of the trail. The only literal at which one can fail
is a decision in the middle of the current level; there is none where every level begins with its
decision. -/
theorem unmarked_of_analysis (hs : n.Justified) (ha : a.Unmarked n.trail.varCount) :
    (∀ failed, n.Conflict failed →
      (∃ x a', a.analyze n.store n.trail failed = .ok (x, a') ∧ a'.Unmarked n.trail.varCount) ∨
      ∃ l, n.trail.Misplaced l ∧
        a.analyze n.store n.trail failed = .error (.impliedWithoutReason l)) ∧
    (n.trail.Led → ∀ failed, n.Conflict failed →
      ∃ x a', a.analyze n.store n.trail failed = .ok (x, a') ∧ a'.Unmarked n.trail.varCount) ∧
    ∀ p ∈ n.trail, ∃ found a', a.failedAssumptions n.store n.trail p = .ok (found, a') ∧
      a'.Unmarked n.trail.varCount := by
  refine ⟨fun failed hconf => unmarked_of_analyze hs ha hconf, fun hled failed hconf => ?_,
    fun p hp => unmarked_of_failedAssumptions hs ha hp⟩
  refine (unmarked_of_analyze hs ha hconf).resolve_right ?_
  rintro ⟨l, hl, -⟩
  exact hled.not_misplaced hl

/-- The analysis of a conflict on the second level leaves out a redundant literal after a search, and
then a literal of the level is traced back to the decisions. -/
theorem unmarked_after_chain :
    ∃ s e e' h p, Run { uncanceled := true } s { added := Demand.chain.reverse } ∧ s.Searches e ∧
      e.propagate = .ok (some h, e') ∧ e'.trail.level = 2 ∧
      p ∈ e'.trail ∧ e'.trail.levelOf p.var = 2 ∧
      ∃ x a₁ found a₂,
        ({ e'.analysis with minimisation := .deep } : Analysis).analyze e'.store e'.trail h =
          .ok (x, a₁) ∧ a₁.Unmarked e'.trail.varCount ∧
        a₁.failedAssumptions e'.store e'.trail p = .ok (found, a₂) ∧
        a₂.Unmarked e'.trail.varCount := by
  obtain ⟨s, e, e', h, -, -, -, -, -, hrun, hs, hprop, hlevel, -⟩ := exists_conflict_of_chain
  obtain ⟨as, hu⟩ := hs.underway hrun
  have hhalted := (hu.propagate hprop).2.2.2 h rfl
  have hf := hhalted.broken.reaches.fit
  have hconf : e'.network.Conflict h := hhalted.broken.conflict
  obtain ⟨p, hp, hplevel⟩ := hconf.exists_mem
  let a : Analysis := { e'.analysis with minimisation := .deep }
  have ha : a.Unmarked e'.network.trail.varCount := ⟨hf.marked, hf.clean⟩
  obtain ⟨x, a₁, hx, ha₁⟩ :=
    (unmarked_of_analysis hf.sane.justified ha).2.1 hhalted.led h hconf
  obtain ⟨found, a₂, hfound, ha₂⟩ := (unmarked_of_analysis hf.sane.justified ha₁).2.2 p hp
  exact ⟨s, e, e', h, p, hrun, hs, hprop, hlevel, hp, hplevel.trans hlevel, x, a₁, found, a₂, hx,
    ha₁, hfound, ha₂⟩

end Analysis

end CardSat
