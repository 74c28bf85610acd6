import CardSat.Proofs.Database.Reducing
import CardSat.Proofs.Reasons

set_option autoImplicit false

/-! # Giving up learnt clauses in a search

Whenever a search is interrupted, between two of its rounds or in the middle of one
(`Engine.Midway`), every reason is the reason of the first literal of its clause, the lists name
what is stored, and the counts are right (`Engine.Reducible`). This is all that giving up learnt
clauses relies on. So it takes nothing away that is in use, at any level (`reduces_of_run`).

What is taken away is described by a ranking of the learnt clauses: those with two literals and
those that are a reason are kept, and of the others those in the first half of the ranking or below
a threshold go (`Database.Reduces`). The ranking is by activity, and stable, so clauses of the same
activity stand as they stood on their list.
-/

namespace CardSat

namespace Engine

/-- The states of a search that begins in `e₀`: those in which a round begins, those after the steps
of a round, and those from which it goes back to a lower level. -/
inductive Midway (task : Task) (e₀ : Engine) : Engine → Prop
  | round {e : Engine} (hr : Round task e₀ e) : Midway task e₀ e
  | propagated {e e₁ : Engine} {failed : Option Handle} (hr : Round task e₀ e)
      (hpropagate : e.propagate = .ok (failed, e₁)) : Midway task e₀ e₁
  | simplified {e e₁ e₂ : Engine} (hr : Round task e₀ e)
      (hpropagate : e.propagate = .ok (none, e₁)) (hsimplify : e₁.simplify = .ok e₂) :
      Midway task e₀ e₂
  | reduced {e e₁ e₂ e₃ : Engine} (hr : Round task e₀ e)
      (hpropagate : e.propagate = .ok (none, e₁)) (hsimplify : e₁.simplify = .ok e₂)
      (hreduce : e₂.reduce = .ok e₃) : Midway task e₀ e₃
  | chosen {e e₁ e₂ e₃ e₄ : Engine} {c : Choosing} (hr : Round task e₀ e)
      (hpropagate : e.propagate = .ok (none, e₁)) (hsimplify : e₁.simplify = .ok e₂)
      (hreduce : e₂.reduce = .ok e₃) (hchoose : e₃.choose task.assumptions = .ok (c, e₄)) :
      Midway task e₀ e₄
  | analyzed {e e₁ e₂ : Engine} {h : Handle} {lesson : Lesson} (hr : Round task e₀ e)
      (hpropagate : e.propagate = .ok (some h, e₁))
      (hanalyze : { e₁ with conflicts := e₁.conflicts + 1 }.analyze h = .ok (lesson, e₂)) :
      Midway task e₀ e₂
  | canceled {e e₁ : Engine} {b : Nat} (hm : Midway task e₀ e)
      (hcancel : e.cancelUntil b = .ok e₁) : Midway task e₀ e₁

/-- What giving up learnt clauses relies on. -/
structure Reducible (e : Engine) : Prop where
  sane : e.network.Sane e.dead e.network.index.line
  listed : e.database.Listed e.store
  stored : ∀ a ∈ e.database.learnts.toList, ∃ c, e.store.get? a = some c
  tallied : e.database.Tallied e.store

variable {e e' e₀ e₁ : Engine} {R : World → Prop} {good : Prop} {task : Task}

theorem Fit.reducible (hf : e.Fit R) (ho : e.Orderly) : e.Reducible :=
  ⟨hf.sane, hf.listed, ho.learnts_stored, ho.tallied⟩

theorem reducible_of_choose {as : Array Lit} {c : Choosing} (hs : Searching R good as e₀ e)
    (hidle : e.Idle) (ho : e.Orderly) (h : e.choose as = .ok (c, e')) : e'.Reducible := by
  have ho' := orderly_of_choose hs hidle ho h
  have hc := chosen_of_choose hs hidle h
  cases c with
  | failed core => exact hc.1.reaches.fit.reducible ho'
  | complete => exact hc.1.reaches.fit.reducible ho'
  | decide l =>
      -- the literal is no longer among those to be decided, so the engine is not fit here
      obtain ⟨e₁, d, k, hs₁, -, rfl, -⟩ := hc
      exact ⟨hs₁.reaches.fit.sane, hs₁.reaches.fit.listed, ho'.learnts_stored, ho'.tallied⟩

theorem reducible_of_cancelUntil {b : Nat} (hr : e.Reducible) (h : e.cancelUntil b = .ok e') :
    e'.Reducible := by
  have hs := sane_of_cancelUntil hr.sane h
  obtain ⟨d, -, rfl⟩ := cancelUntil_eq_ok.1 h
  exact ⟨hs, hr.listed, hr.stored, hr.tallied⟩

/-- A search that is under way can give up learnt clauses in each of its states. -/
theorem reducible_of_midway (hu : Underway R good task.assumptions e₀ e) (hm : Midway task e e') :
    e'.Reducible := by
  induction hm with
  | round hr =>
      have hu₁ := underway_of_round hu hr
      exact hu₁.fit.reducible hu₁.orderly
  | @propagated _ _ failed hr hprop =>
      have hu₁ := underway_of_round hu hr
      exact (propagated_of_propagate hu₁.fit hu₁.searching.watching hprop).reaches.fit.reducible
        (orderly_of_propagate hu₁.fit hu₁.orderly hprop)
  | simplified hr hprop hsimp =>
      have hu₁ := ((underway_of_round hu hr).propagate hprop).2.2.1 rfl
      exact (searching_of_simplify hu₁.searching hsimp).1.reaches.fit.reducible
        (orderly_of_simplify hu₁.fit hu₁.orderly hsimp)
  | reduced hr hprop hsimp hred =>
      obtain ⟨hidle, -, hnone, -⟩ := (underway_of_round hu hr).propagate hprop
      obtain ⟨-, -, hu₁⟩ := (hnone rfl).tidy hidle hsimp hred
      exact hu₁.fit.reducible hu₁.orderly
  | chosen hr hprop hsimp hred hchoose =>
      obtain ⟨hidle, -, hnone, -⟩ := (underway_of_round hu hr).propagate hprop
      obtain ⟨hidle₁, -, hu₁⟩ := (hnone rfl).tidy hidle hsimp hred
      exact reducible_of_choose hu₁.searching hidle₁ hu₁.orderly hchoose
  | analyzed hr hprop hanalyze =>
      have hh := (((underway_of_round hu hr).propagate hprop).2.2.2 _ rfl).counted
      have hf := hh.broken.reaches.fit
      exact (reaches_of_analyze hf hh.broken.conflict hanalyze).1.fit.reducible
        (orderly_of_analyze hf hh.orderly hh.broken.conflict hanalyze)
  | canceled _ hcancel ih => exact reducible_of_cancelUntil ih hcancel

end Engine

/-- The engine of a solver is in the middle of a search. -/
def Solver.Amid (s : Solver) (e : Engine) : Prop :=
  s.ok = true ∧ ∃ budget as,
    Engine.Midway (s.engine.order s.settings.restart budget as) s.engine.opened e

variable {rules : Rules} {s : Solver} {L : Ledger} {e : Engine}

open Engine

theorem Solver.Amid.reducible (hrun : Run rules s L) (hm : s.Amid e) : e.Reducible := by
  obtain ⟨-, budget, as, hm⟩ := hm
  have hv := valid_of_run hrun
  exact reducible_of_midway
    (.opened hv.fit (orderly_of_run hrun) hv.ground (False.elim : False → _) as.toArray) hm

/-- In the middle of a search, at any level, giving up learnt clauses is not refused. It leaves the
trail, the given constraints and the facts alone, and frees and reports exactly the learnt clauses
that have more than two literals, are not in use as reasons, and stand in the first half of the
ranking or have too low an activity. The counts are right again afterwards. -/
theorem reduces_of_run (hrun : Run rules s L) (hm : s.Amid e)
    (hcmp : e.database.Comparable e.store) :
    ∃ ranked db' sweep, e.database.reduce e.store e.trail = .ok (db', sweep) ∧
      e.database.Ranking e.store ranked ∧
      e.database.Reduces e.store e.trail ranked db' sweep := by
  have hr := hm.reducible hrun
  obtain ⟨db', sweep, hreduce, -⟩ := e.database.succeeds_reduce
    (List.nodup_append.1 hr.listed.nodup).2.1 hr.stored hr.sane.formed
  obtain ⟨ranked, hranking, hreduces⟩ :=
    Database.reduces_of_reduce hr.sane hr.listed hr.tallied hcmp hreduce
  exact ⟨ranked, db', sweep, hreduce, hranking, hreduces⟩

open Lit (x0 x1 x2 x3) in
/-- A clause of three literals that was learnt from a conflict on the third level, and that is not in
use any more on the first one. -/
theorem reduces_after_conflict :
    ∃ s L e ranked db' sweep, Run { uncanceled := true } s L ∧ s.Amid e ∧ e.trail.level = 1 ∧
      e.database.Comparable e.store ∧
      e.database.reduce e.store e.trail = .ok (db', sweep) ∧
      sweep.removed.map (fun x => x.2.lits) = #[#[x2.neg, x1.neg, x0.neg]] ∧
      e.database.Ranking e.store ranked ∧
      e.database.Reduces e.store e.trail ranked db' sweep := by
  have hpass : ((Solver.ofDemands 4 [.clause [x0.neg, x1.neg, x2.neg, x3],
      .clause [x0.neg, x1.neg, x2.neg, x3.neg]] >>= fun s =>
      s.engine.opened.firstDecision #[x0, x1, x2] >>= fun x =>
      x.1.firstDecision #[x0, x1, x2] >>= fun y => y.1.firstDecision #[x0, x1, x2] >>= fun z =>
      present z.2.1 >>= fun h =>
      { z.2.2 with conflicts := z.2.2.conflicts + 1 }.learnFrom h >>= fun a =>
      a.2.cancelUntil 1 >>= fun e => e.database.reduce e.store e.trail >>= fun r =>
      return (s, x, y, z, h, a, e, r)).toOption.any fun r =>
        r.1.ok && r.2.2.2.2.2.1.1 && r.2.2.2.2.2.2.1.trail.level == 1 &&
          decide (r.2.2.2.2.2.2.1.database.Comparable r.2.2.2.2.2.2.1.store) &&
          r.2.2.2.2.2.2.2.2.removed.map (fun x => x.2.lits) ==
            #[#[x2.neg, x1.neg, x0.neg]]) = true := by
    simp (disch := decide) only [Solver.ofDemands, Solver.addDemands, Solver.demand,
      Solver.addClause, Engine.addClause, Engine.addReduced, Lit.sortDistinct_of_pairwise]
    decide +kernel
  obtain ⟨s, r, hrun, hr, htest⟩ := exists_run_of_test hpass (by decide) (by decide)
  simp only [bind_eq_ok, pure_eq_ok, present_eq_ok] at hr
  obtain ⟨⟨e₁, f₁, e₁'⟩, hfirst, ⟨e₂, f₂, e₂'⟩, hsecond, ⟨e₃, f₃, e₃'⟩, hthird, h, hh,
    ⟨taught, e₄⟩, hlearn, e, hcancel, ⟨db', sweep⟩, hreduce, rfl⟩ := hr
  obtain rfl : f₃ = some h := hh
  simp only [Bool.and_eq_true, beq_iff_eq, decide_eq_true_iff] at htest
  obtain ⟨⟨⟨⟨hok, rfl⟩, hlevel⟩, hcmp⟩, hremoved⟩ := htest
  obtain ⟨L, hrun⟩ : ∃ L, Run { uncanceled := true } s L := ⟨_, hrun _⟩
  -- three rounds decide the assumptions, the next one begins with the learnt clause
  let task : Task := s.engine.order s.settings.restart {} [x0, x1, x2]
  have hround₁ : Round task s.engine.opened e₁ := (round_of_firstDecision hfirst).1
  have hround₂ : Round task s.engine.opened e₂ := (round_of_nextDecision hround₁ hsecond).1
  obtain ⟨hround₃, hprop⟩ := round_of_nextDecision hround₂ hthird
  have hm : s.Amid e :=
    ⟨hok, {}, [x0, x1, x2], .canceled (.round (hround₃.learn hprop hlearn)) hcancel⟩
  obtain ⟨ranked, db₁, sweep₁, hreduce₁, hranking, hreduces⟩ := reduces_of_run hrun hm hcmp
  obtain ⟨rfl, rfl⟩ := Prod.mk.inj (Except.ok.inj (hreduce.symm.trans hreduce₁))
  exact ⟨s, L, e, ranked, _, _, hrun, hm, hlevel, hcmp, hreduce, hremoved, hranking, hreduces⟩

end CardSat
