import CardSat.Proofs.Database.Simplifying
import CardSat.Proofs.Reasons

set_option autoImplicit false

/-! # Simplification at the ground level

In every run without canceled searches there are moments at the ground level where everything is
propagated and no conflict was found (`Solver.Quiet`). Removing satisfied constraints then keeps the
meaning of what is stored, whichever constraints it is told to examine and to strengthen
(`simplifies_of_run`).

Only a clause that is examined is known to have two literals without a value in front: one that is
not examined may be satisfied and stay (`satisfied_clause_left`).

That a clause which is left has two literals without a value in front is not done by the removal.
The first two literals are on watch, so where everything is propagated one of them would be true if
the other were false, and the clause would be satisfied and go. The removal only takes literals from
the third on, and those that stay there are not false.
-/

namespace CardSat

/-- The engines of a run in which a propagation has ended without a conflict, and nothing was
assigned since: between two calls, and in the course of one until the next decision. -/
inductive Solver.Quiet (s : Solver) (L : Ledger) : Engine → Prop
  | between (hok : s.ok = true) : Quiet s L s.engine
  | propagated {e e' : Engine} (h : s.Propagates L e) (hprop : e.propagate = .ok (none, e')) :
      Quiet s L e'
  | simplified {e e' : Engine} (h : Quiet s L e) (hsimp : e.simplify = .ok e') : Quiet s L e'
  | reduced {e e' : Engine} (h : Quiet s L e) (hred : e.reduce = .ok e') : Quiet s L e'

variable {s : Solver} {L : Ledger} {e : Engine}

open Engine

/-- In a quiet moment no constraint is forgotten. -/
theorem prepared_of_quiet (hrun : Run { uncanceled := true } s L) (hq : s.Quiet L e) :
    e.Prepared ∧ e.Idle := by
  induction hq with
  | between hok =>
      have hv := valid_of_run hrun
      have hr : s.engine.Resting True :=
        { hv.resting hok with watching := fun _ => (hv.resting hok).watching (hv.uncanceled rfl) }
      exact ⟨hr.prepared (orderly_of_run hrun), hr.idle⟩
  | propagated h hprop =>
      have hp := prepared_of_run hrun h
      have hpr := propagated_of_propagate hp.fit (fun _ : True => hp.watching) hprop
      exact ⟨⟨hpr.reaches.fit, hpr.watching rfl trivial,
        orderly_of_propagate hp.fit hp.orderly hprop⟩, hpr.idle⟩
  | simplified _ hsimp ih =>
      obtain ⟨hp, hidle⟩ := ih
      obtain ⟨hr, hc, -, hw⟩ := reaches_of_simplify hp.fit (fun _ : True => hp.watching) hsimp
      refine ⟨⟨hr.fit, hw trivial, orderly_of_simplify hp.fit hp.orderly hsimp⟩, ?_⟩
      -- only reasons were forgotten
      rw [Idle, hc.head, hc.lits]
      exact hidle
  | reduced _ hred ih =>
      obtain ⟨hp, hidle⟩ := ih
      obtain ⟨hr, htrail, hw⟩ := reaches_of_reduce hp.fit (fun _ : True => hp.watching) hred
      refine ⟨⟨hr.fit, hw trivial, orderly_of_reduce hp.fit hp.orderly hred⟩, ?_⟩
      rw [Idle, htrail]
      exact hidle

/-- Removing satisfied constraints at the ground level is not refused, and it keeps the worlds of
the constraints, the first two literals of every clause and the trail except for the reasons it
removes. Those two literals have no value if the clause was examined. -/
theorem simplifies_of_run (hrun : Run { uncanceled := true } s L) (hq : s.Quiet L e)
    (hground : e.trail.level = 0) (givenToo strengthen : Bool) :
    ∃ db' sweep, e.database.removeSatisfied e.store e.trail givenToo strengthen = .ok (db', sweep) ∧
      e.database.Simplifies e.store e.trail givenToo strengthen db' sweep := by
  obtain ⟨hp, hidle⟩ := prepared_of_quiet hrun hq
  exact Database.simplifies_of_removeSatisfied hp.fit.sane hp.watching hidle hground hp.fit.listed
    hp.orderly.stored givenToo strengthen

open Lit in
/-- A fact that satisfies one clause and is false in the other, which is strengthened. -/
theorem simplifies_after_fact :
    ∃ s L db' sweep, Run { uncanceled := true } s L ∧ s.Quiet L s.engine ∧
      s.engine.database.removeSatisfied s.engine.store s.engine.trail true true =
        .ok (db', sweep) ∧
      sweep.removed.map (fun x => x.2.lits) = #[#[x0, x2.neg]] ∧
      (sweep.store.get? ⟨0⟩).map (fun c => c.lits) = some #[x0, x1] ∧
      s.engine.database.Simplifies s.engine.store s.engine.trail true true db' sweep := by
  have hpass : ((Solver.ofDemands 3 [.clause [x0, x1, x2], .clause [x0, x2.neg],
      .clause [x2.neg]] >>= fun s => s.engine.database.removeSatisfied s.engine.store
        s.engine.trail true true >>= fun x => return (s, x)).toOption.any fun x =>
      x.1.ok && x.1.engine.trail.level == 0 &&
        x.2.2.removed.map (fun x => x.2.lits) == #[#[x0, x2.neg]] &&
        (x.2.2.store.get? ⟨0⟩).map (fun c => c.lits) == some #[x0, x1]) = true := by
    simp (disch := decide) only [Solver.ofDemands, Solver.addDemands, Solver.demand,
      Solver.addClause, Engine.addClause, Engine.addReduced, Lit.sortDistinct_of_pairwise]
    decide +kernel
  obtain ⟨s, ⟨s', db', sweep⟩, hrun, h, htest⟩ :=
    exists_run_of_test hpass (by decide) (by decide)
  simp only [bind_eq_ok, pure_eq_ok, Prod.mk.injEq] at h
  obtain ⟨x, hremove, rfl, rfl⟩ := h
  simp only [Bool.and_eq_true, beq_iff_eq] at htest
  obtain ⟨⟨⟨hok, hground⟩, hremoved⟩, hleft⟩ := htest
  obtain ⟨L, hrun⟩ : ∃ L, Run { uncanceled := true } s L := ⟨_, hrun _⟩
  have hq : s.Quiet L s.engine := .between hok
  obtain ⟨db₁, sweep₁, hremove₁, hsimplifies⟩ := simplifies_of_run hrun hq hground true true
  obtain ⟨rfl, rfl⟩ := Prod.mk.inj (Except.ok.inj (hremove.symm.trans hremove₁))
  exact ⟨s, L, _, _, hrun, hq, hremove, hremoved, hleft, hsimplifies⟩

open Lit in
/-- A satisfied clause that is not examined stays, with a true literal in front. -/
theorem satisfied_clause_left :
    ∃ s L db' sweep l, Run { uncanceled := true } s L ∧ s.Quiet L s.engine ∧
      s.engine.trail.level = 0 ∧
      s.engine.database.removeSatisfied s.engine.store s.engine.trail false false =
        .ok (db', sweep) ∧
      (sweep.store.get? ⟨0⟩).any (fun c => !c.isAtMost && c.lits[0]? == some l) = true ∧
      s.engine.trail.truth l ≠ .unset := by
  have hpass : ((Solver.ofDemands 2 [.clause [x0, x1], .clause [x0]] >>= fun s =>
      s.engine.database.removeSatisfied s.engine.store s.engine.trail false false >>= fun x =>
        return (s, x)).toOption.any fun x =>
      x.1.ok && x.1.engine.trail.level == 0 &&
        (x.2.2.store.get? ⟨0⟩).any (fun c => !c.isAtMost && c.lits[0]? == some x0) &&
        x.1.engine.trail.truth x0 != .unset) = true := by
    simp (disch := decide) only [Solver.ofDemands, Solver.addDemands, Solver.demand,
      Solver.addClause, Engine.addClause, Engine.addReduced, Lit.sortDistinct_of_pairwise]
    decide +kernel
  obtain ⟨s, ⟨s', db', sweep⟩, hrun, h, htest⟩ :=
    exists_run_of_test hpass (by decide) (by decide)
  simp only [bind_eq_ok, pure_eq_ok, Prod.mk.injEq] at h
  obtain ⟨x, hremove, rfl, rfl⟩ := h
  simp only [Bool.and_eq_true, beq_iff_eq, bne_iff_ne] at htest
  obtain ⟨⟨⟨hok, hground⟩, hleft⟩, htrue⟩ := htest
  exact ⟨s, _, _, _, x0, hrun _, .between hok, hground, hremove, hleft, htrue⟩

end CardSat
