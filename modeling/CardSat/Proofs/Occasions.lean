import CardSat.Proofs.Engine.Closure
import CardSat.Proofs.Ledger.Demands
import CardSat.Proofs.Ledger.Orderly

set_option autoImplicit false

/-! # When a solver propagates

Every call of a solver propagates in certain states only. They are listed here, following the
definitions of the calls: adding a clause (`Engine.ClausePropagates`) or an at-most constraint
(`Engine.AtMostPropagates`), any other demand, preprocessing, the rounds of a search
(`Engine.Round`) and the replay of facts (`Engine.Replaying`).

In all of these states, in every run without canceled searches, propagation computes the closure of
the trail (`closes_of_run`).

What has to be shown of each of these states is that the engine is fit, in order and watches its
constraints (`Engine.Prepared`), since then propagation closes its trail whatever it is called for.
Some of them are in the middle of an operation, where the engine is not at rest: in the test for an
implied clause a level is open on which several literals were placed without a reason, and in a
replay some of the facts are not in place yet.
-/

namespace CardSat

namespace Engine

/-! ## Occasions -/

/-- What propagation counts on. -/
structure Prepared (e : Engine) : Prop where
  fit : e.Fit fun _ => False
  watching : e.Watching
  orderly : e.Orderly

/-- The engines that adding a clause to `e` propagates. -/
inductive ClausePropagates (lits : List Lit) (e : Engine) : Engine → Prop
  /-- The literals were made false on a level of their own, to see whether the clause follows. -/
  | tried {e' : Engine} (hcheck : e.settings.checkImplied = true)
      (h : refute lits { e with network := { e.network with trail := e.trail.openLevel } } =
        .ok (false, e')) : ClausePropagates lits e e'
  /-- One literal was left of the clause, and it has become a fact. -/
  | fact {e₁ e' : Engine} {l : Lit}
      (hchecked : (e.settings.checkImplied = true ∧ e.implies lits = .ok (false, e₁)) ∨
        (e.settings.checkImplied = false ∧ e₁ = e))
      (hleft : ((Lit.sortDistinct lits).filterM fun l => do return !(← e₁.trail.isFalse l)) =
        .ok [l])
      (h : e₁.addFact l = .ok e') : ClausePropagates lits e e'

/-- The engines that adding an at-most constraint to `e` propagates: nothing was left of the
bound, and the complements of the literals that were left have become facts. -/
inductive AtMostPropagates (lits : List Lit) (bound : Nat) (e : Engine) : Engine → Prop
  | facts {e' : Engine} {r : Remainder}
      (htake : (Lit.sort lits).foldlM (Remainder.take e.trail) { bound := Int64.ofNat bound } =
        .ok r)
      (hzero : r.bound = 0) (h : r.lits.foldlM (fun e l => addFact e l.neg) e = .ok e') :
      AtMostPropagates lits bound e e'

/-- The engines that replaying facts propagates. -/
inductive Replaying : List Lit → Engine → Engine → Prop
  | here {l : Lit} {rest : List Lit} {e : Engine} {t : Trail}
      (h : e.trail.tryAssign l none = .ok (true, t)) :
      Replaying (l :: rest) e { e with network := { e.network with trail := t } }
  | next {l : Lit} {rest : List Lit} {e e₁ e' : Engine} {t : Trail}
      (h : e.trail.tryAssign l none = .ok (true, t))
      (hprop : propagate { e with network := { e.network with trail := t } } = .ok (none, e₁))
      (hr : Replaying rest e₁ e') : Replaying (l :: rest) e e'

variable {e e' : Engine} {l : Lit} {lits facts : List Lit} {bound : Nat}

/-! ## Adding -/

theorem Resting.prepared (hr : e.Resting True) (ho : e.Orderly) : e.Prepared :=
  ⟨hr.fit.anti fun _ => False.elim, hr.watching trivial, ho⟩

theorem Prepared.addFact (hp : e.Prepared) (hground : e.trail.level = 0)
    (h : e.addFact l = .ok e') : e'.Prepared := by
  obtain ⟨hr, -, hw, -⟩ := reaches_of_fact hp.fit (fun _ => False.elim) hground h
  exact ⟨hr.fit, hw hp.watching, orderly_of_addFact hp.orderly h⟩

theorem Prepared.addFacts {ls : List Lit} (hp : e.Prepared) (hground : e.trail.level = 0)
    (h : ls.foldlM (fun e l => Engine.addFact e l.neg) e = .ok e') : e'.Prepared := by
  obtain ⟨hr, -, hw, -⟩ := reaches_of_facts hp.fit hground (fun _ => False.elim) h
  exact ⟨hr.fit, hw hp.watching, orderly_of_addFacts hp.orderly h⟩

theorem prepared_of_clause (hr : e.Resting True) (ho : e.Orderly)
    (h : e.ClausePropagates lits e') : e'.Prepared := by
  cases h with
  | tried hcheck h =>
      have hf := (hr.prepared ho).fit
      have hopen := reaches_of_openLevel hf hr.idle
      have hrefuted :=
        refuted_of_refute hopen.fit (by rw [trail, Trail.level_openLevel]; omega) h
      exact ⟨hrefuted.reaches.fit, hrefuted.watching (hr.watching trivial).openLevel,
        orderly_of_refute ho.openLevel h⟩
  | fact hchecked hleft h =>
      rcases hchecked with ⟨-, himplies⟩ | ⟨-, rfl⟩
      · obtain ⟨-, hr₁, -⟩ := implied_of_implies hr himplies
        exact (hr₁.prepared (orderly_of_implies hr.fit hr.idle ho himplies)).addFact hr₁.ground h
      · exact (hr.prepared ho).addFact hr.ground h

theorem prepared_of_atMost (hr : e.Resting True) (ho : e.Orderly)
    (h : e.AtMostPropagates lits bound e') : e'.Prepared := by
  obtain ⟨-, -, h⟩ := h
  rw [← Array.foldlM_toList] at h
  exact (hr.prepared ho).addFacts hr.ground h

/-! ## Searching and replaying -/

/-- Each round of a search begins prepared. -/
theorem prepared_of_round {restart : RestartStrategy} {budget : Budget} {as : List Lit}
    (hr : e.Resting True) (ho : e.Orderly)
    (h : Round (e.order restart budget as) e.opened e') : e'.Prepared := by
  have hp := hr.prepared ho
  have hs : Searching (fun _ => False) True (e.order restart budget as).assumptions e e.opened :=
    ⟨reaches_of_opened hp.fit, .start e.trail as.toArray, hr.watching⟩
  have hs' := searching_of_round hs h
  exact ⟨hs'.reaches.fit, hs'.watching trivial, orderly_of_round hs ho.opened h⟩

/-- Each time a replay propagates, it is prepared. -/
theorem prepared_of_replaying (h : Replaying facts e e') (hp : e.Prepared)
    (hground : e.trail.level = 0) : e'.Prepared := by
  induction h with
  | here htry =>
      have ht := tried_of_tryAssign hp.fit hground (fun _ => False.elim) htry
      exact ⟨ht.reaches.fit, ht.watching hp.watching,
        orderly_of_tryAssign hp.fit.sane.trail hp.orderly htry⟩
  | next htry hprop _ ih =>
      have ht := tried_of_tryAssign hp.fit hground (fun _ => False.elim) htry
      have ho := orderly_of_tryAssign hp.fit.sane.trail hp.orderly htry
      have hpr :=
        propagated_of_propagate ht.reaches.fit (fun _ : True => ht.watching hp.watching) hprop
      exact ih ⟨hpr.reaches.fit, hpr.watching rfl trivial,
        orderly_of_propagate ht.reaches.fit ho hprop⟩ (hpr.longer.level_eq.trans ht.ground)

end Engine

/-! ## Calls -/

/-- The engines that adding a demand propagates. -/
inductive DemandPropagates : Solver → Demand → Engine → Prop
  | clause {s : Solver} {e : Engine} {lits : List Lit} (hok : s.ok = true)
      (h : s.engine.ClausePropagates lits e) : DemandPropagates s (.clause lits) e
  | atMost {s : Solver} {e : Engine} {lits : List Lit} {bound : Nat} (hok : s.ok = true)
      (h : s.engine.AtMostPropagates lits bound e) : DemandPropagates s (.atMost lits bound) e
  | tooMany {s : Solver} {e : Engine} {lits : List Lit} {bound : Nat}
      (hgt : bound > (Lit.sortDistinct lits).length) (h : DemandPropagates s (.clause []) e) :
      DemandPropagates s (.atLeast lits bound) e
  | atLeast {s : Solver} {e : Engine} {lits : List Lit} {bound : Nat}
      (hle : bound ≤ (Lit.sortDistinct lits).length)
      (h : DemandPropagates s (.atMost ((Lit.sortDistinct lits).map Lit.neg)
        ((Lit.sortDistinct lits).length - bound)) e) : DemandPropagates s (.atLeast lits bound) e
  | upper {s : Solver} {e : Engine} {lits : List Lit} {bound : Nat}
      (h : DemandPropagates s (.atMost lits bound) e) : DemandPropagates s (.exactly lits bound) e
  | lower {s s₁ : Solver} {e : Engine} {lits : List Lit} {bound : Nat}
      (hupper : s.addAtMost lits bound = .ok (true, s₁))
      (h : DemandPropagates s₁ (.atLeast lits bound) e) : DemandPropagates s (.exactly lits bound) e

/-- The engines that a call of a solver propagates, when the snapshots of a ledger may be
loaded. -/
inductive Solver.Propagates (s : Solver) (L : Ledger) : Engine → Prop
  | add {e : Engine} (d : Demand) (h : DemandPropagates s d e) : Propagates s L e
  | preprocess (hok : s.ok = true) : Propagates s L s.engine
  | solve {e : Engine} (budget : Budget) (assumptions : List Lit) (hok : s.ok = true)
      (h : Engine.Round (s.engine.order s.settings.restart budget assumptions) s.engine.opened e) :
      Propagates s L e
  | load {e₁ e : Engine} {snapshot : Snapshot} {added : List Demand}
      (hlive : (snapshot, added) ∈ L.saved) (hok : snapshot.ok = true)
      (hdiscard : s.engine.discardSince snapshot = .ok e₁)
      (h : Engine.Replaying e₁.database.units.toList e₁ e) : Propagates s L e

variable {rules : Rules} {s : Solver} {L : Ledger} {e : Engine}

theorem prepared_of_demand {d : Demand} (h : DemandPropagates s d e)
    (hr : s.ok = true → s.engine.Resting True) (ho : s.engine.Orderly) : e.Prepared := by
  induction h with
  | clause hok h => exact Engine.prepared_of_clause (hr hok) ho h
  | atMost hok h => exact Engine.prepared_of_atMost (hr hok) ho h
  | tooMany _ _ ih => exact ih hr ho
  | atLeast _ _ ih => exact ih hr ho
  | upper _ ih => exact ih hr ho
  | lower hupper _ ih =>
      rcases Solver.whileOk_eq_ok.1 hupper with ⟨hok, e₁, hadd, rfl⟩ | ⟨-, hno, -⟩
      · obtain ⟨_, -, ha⟩ := Engine.adds_of_addAtMost (hr hok) hadd
        exact ih (fun _ => ha.resting) (ha.orderly ho)
      · cases hno

/-- Without canceled searches propagation is prepared for, whichever call it is in. -/
theorem prepared_of_run (hrun : Run { uncanceled := true } s L) (h : s.Propagates L e) :
    e.Prepared := by
  have hv := valid_of_run hrun
  have ho := orderly_of_run hrun
  have hr : s.ok = true → s.engine.Resting True := fun hok =>
    { hv.resting hok with watching := fun _ => (hv.resting hok).watching (hv.uncanceled rfl) }
  cases h with
  | add d h => exact prepared_of_demand h hr ho
  | preprocess hok => exact (hr hok).prepared ho
  | solve budget assumptions hok h => exact Engine.prepared_of_round (hr hok) ho h
  | load hlive hok hdiscard h =>
      have hrecalls := hv.recalls _ hlive
      obtain ⟨-, hf₁, hlits, -, hground⟩ :=
        Engine.cut_of_discardSince hv.fit hrecalls.incremental hrecalls.restorable hdiscard
      have ho₁ := Engine.orderly_of_discardSince hv.fit hrecalls.incremental hrecalls.restorable ho
        hdiscard
      -- the trail is empty, so no literal has been passed on
      have hw : Engine.Watching _ := fun a c hc key _ hdone => by
        have := List.mem_of_mem_take hdone
        rw [hlits] at this
        cases this
      exact Engine.prepared_of_replaying h ⟨hf₁.anti fun _ => False.elim, hw, ho₁⟩ hground

/-! ## Closures -/

/-- Whenever a solver propagates, in a run without canceled searches, this is not refused and
computes the closure of the trail. -/
theorem closes_of_run (hrun : Run { uncanceled := true } s L) (h : s.Propagates L e) :
    ∃ failed e', e.propagate = .ok (failed, e') ∧ e.Closes failed e' := by
  have hp := prepared_of_run hrun h
  exact Engine.closes_of_propagate hp.fit hp.watching hp.orderly

/-- Adds a literal as a fact and propagates it, as a demand that comes down to it does. Before, the
literals of the demand that are not false are listed. -/
def Solver.propagateFact (s : Solver) (l : Lit) :
    Checked (List Lit × Engine × Option Handle × Engine) := do
  let left ← [l].filterM fun l => do return !(← s.engine.trail.isFalse l)
  let e ← s.engine.addFact l
  let (failed, e') ← e.propagate
  return (left, e, failed, e')

open Lit in
/-- A fact that is added to a clause, and the other literal, which it forces. -/
theorem closure_of_added_fact :
    ∃ s L e e', Run { uncanceled := true } s L ∧ s.Propagates L e ∧
      e.trail.lits = #[x0] ∧ e.propagate = .ok (none, e') ∧ e'.trail.lits = #[x0, x1] ∧
      e.Closes none e' := by
  have hpass : ((Solver.ofDemands 2 [.clause [x0.neg, x1]] >>= fun s =>
      s.propagateFact x0 >>= fun x => return (s, x)).toOption.any fun x =>
        x.1.ok && !x.1.engine.settings.checkImplied && x.2.1 == [x0] &&
          x.2.2.1.trail.lits == #[x0] && x.2.2.2.1.isNone &&
          x.2.2.2.2.trail.lits == #[x0, x1]) = true := by
    simp (disch := decide) only [Solver.ofDemands, Solver.addDemands, Solver.demand,
      Solver.addClause, Engine.addClause, Engine.addReduced, Lit.sortDistinct_of_pairwise]
    decide +kernel
  obtain ⟨s, ⟨s', left, e, failed, e'⟩, hrun, h, htest⟩ :=
    exists_run_of_test hpass (by decide) (by decide)
  simp only [Solver.propagateFact, bind_eq_ok, pure_eq_ok, Prod.mk.injEq] at h
  obtain ⟨_, ⟨left, hleft, e, hfact, ⟨failed, e'⟩, hprop, rfl⟩, rfl, rfl, rfl, rfl, rfl⟩ := h
  simp only [Bool.and_eq_true, beq_iff_eq, Bool.not_eq_true', Option.isNone_iff_eq_none] at htest
  obtain ⟨⟨⟨⟨⟨hok, hcheck⟩, rfl⟩, hlits⟩, rfl⟩, hlits'⟩ := htest
  have hocc : s.Propagates { added := [.clause [x0.neg, x1]] } e := by
    refine .add (.clause [x0]) (.clause hok (.fact (.inr ⟨hcheck, rfl⟩) ?_ hfact))
    rw [Lit.sortDistinct_of_pairwise (by decide)]
    exact hleft
  obtain ⟨failed, e₁, hprop₁, hcloses⟩ := closes_of_run (hrun _) hocc
  obtain ⟨rfl, rfl⟩ := Prod.mk.inj (Except.ok.inj (hprop.symm.trans hprop₁))
  exact ⟨s, _, e, e', hrun _, hocc, hlits, hprop, hlits', hcloses⟩

end CardSat
