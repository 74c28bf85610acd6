import CardSat.Proofs.Ledger.Demands
import CardSat.Proofs.Ledger.Valid

set_option autoImplicit false

/-! # What answers are worth

The promises of a solver over all its runs:

* a model makes the assumptions and the demands true,
* a core consists of assumptions that the demands contradict, and an empty one is final,
* whatever is derived follows from the demands alone.

A search that is canceled at a conflict of the ground level forgets this conflict. Then the demands
have no model, and the solver may answer with one all the same; in all other runs its models can be
trusted.

## How the proof goes

Every run keeps `Valid` (`Proofs.Ledger.Valid`), so between two calls the worlds of the problem are
those that meet the demands. A search promises something of the problem (`Engine.Concluded`): a
model solves it and makes the assumptions true, a core of assumptions contradicts it. The theorems
here put the two together for the demands as they were made.

The promise about cores needs less than that about models. What is derived is derived from
constraints that are there, whether or not one of them was forgotten, so a core is right in all
runs. A model is right only if every constraint was visited.
-/

namespace CardSat

open Lit (x0 x1)

variable {s s' : Solver} {L L' : Ledger} {rules : Rules} {σ : Type} {st st' : σ}
  {budget : Budget} {assumptions : List Lit} {handler : Handler (StateM σ)}

/-! ## Solvers that are not ok -/

theorem whileOk_of_not_ok (hok : s.ok = false) (step : Engine → Checked (Bool × Engine)) :
    s.whileOk step = .ok (false, s) :=
  Solver.whileOk_eq_ok.2 (.inr ⟨hok, rfl, rfl⟩)

theorem demand_of_not_ok (hok : s.ok = false) (d : Demand) : s.demand d = .ok (false, s) := by
  have hclause : ∀ lits, Receiver.addClause s lits = .ok (false, s) := fun lits =>
    whileOk_of_not_ok hok fun e => e.addClause lits
  have hatMost : ∀ lits bound, Receiver.addAtMost s lits bound = .ok (false, s) :=
    fun lits bound => whileOk_of_not_ok hok fun e => e.addAtMost lits bound
  cases d with
  | clause lits => exact hclause lits
  | atMost lits bound => exact hatMost lits bound
  | atLeast lits bound =>
      simp only [Solver.demand, Receiver.addAtLeast]
      split
      next => exact hclause _
      next => exact hatMost _ _
  | exactly lits bound =>
      simp only [Solver.demand, Receiver.addExactly, hatMost]
      rfl

/-- Only loading a snapshot makes a solver `ok` again. -/
theorem not_ok_of_calls (h : Calls rules s L s' L') (hok : s.ok = false) : s'.ok = false := by
  induction h with
  | refl => exact hok
  | call _ h ih =>
      cases h with
      | newVar negated decision _ h =>
          obtain ⟨_, -, rfl⟩ := Solver.newVar_eq_ok.1 h
          exact ih
      | add d _ _ h =>
          rw [demand_of_not_ok ih] at h
          obtain ⟨-, rfl⟩ := Prod.mk.inj (Except.ok.inj h)
          exact ih
      | preprocess h =>
          rw [Solver.preprocess, whileOk_of_not_ok ih] at h
          obtain ⟨-, rfl⟩ := Prod.mk.inj (Except.ok.inj h)
          exact ih
      | solve budget assumptions handler h _ =>
          -- a solver that is not `ok` does not search
          rcases returns_solve h with ⟨-, -, rfl⟩ | ⟨hyes, -⟩
          · exact ih
          · rw [ih] at hyes
            cases hyes
      | save h =>
          obtain ⟨-, -, rfl⟩ := Solver.save_eq_ok.1 h
          exact ih

/-- A solver that is not `ok` answers at once. -/
theorem returns_of_not_ok (hok : s.ok = false) (budget : Budget) (assumptions : List Lit)
    (handler : Handler (StateM σ)) (st : σ) :
    ∃ st', Returns (s.solve budget assumptions handler) st (.unsat [], s) st' := by
  simp only [Solver.solve, hok, Bool.false_eq_true, if_false, returns_bind, returns_pure,
    returns_handler]
  exact ⟨_, _, _, rfl, _, _, ⟨rfl, rfl⟩, _, _, rfl, rfl, rfl⟩

/-! ## Models -/

/-- The model of a SAT answer is total, and it makes the assumptions and the demands true. -/
theorem model_of_sat {m : Model} (hrun : Run { decisionVars := true, uncanceled := true } s L)
    (h : Returns (s.solve budget assumptions handler) st (.sat m, s') st') :
    (∀ v : Var, v.index < s.varCount → ∃ b, m.get? v.index = some b) ∧
      (∀ l ∈ assumptions, m.makesTrue l = true) ∧
      ∀ w : World, m.Agrees w → ∀ d ∈ L.added, d.holds w = true := by
  have hv := valid_of_run hrun
  obtain ⟨-, htotal, hassumed, hmeets⟩ := model_of_solve hv rfl h
  exact ⟨htotal, hassumed, hmeets (hv.uncanceled rfl)⟩

/-- One clause and one bound on its literals. -/
theorem model_of_clause_and_bound :
    ∃ s m s', Run { decisionVars := true, uncanceled := true } s
        { added := [.atMost [x0, x1] 1, .clause [x0, x1]] } ∧
      Returns (s.solve {} [x0.neg] (Handler.none : Handler (StateM Unit))) () (.sat m, s') () ∧
      (∀ v : Var, v.index < s.varCount → ∃ b, m.get? v.index = some b) ∧
      (∀ l ∈ [x0.neg], m.makesTrue l = true) ∧
      ∀ w : World, m.Agrees w → ∀ d ∈ [Demand.atMost [x0, x1] 1, .clause [x0, x1]],
        d.holds w = true := by
  have hpass : ((Solver.ofDemands 2 [.clause [x0, x1], .atMost [x0, x1] 1] >>= fun s =>
      s.attempt [x0.neg] Handler.none ()).toOption.any fun x => x.1.model?.isSome) = true := by
    simp (disch := decide) only [Solver.ofDemands, Solver.addDemands, Solver.demand,
      Solver.addClause, Solver.addAtMost, Engine.addAtMost, Engine.addClause, Engine.addReduced,
      Lit.sortDistinct_of_pairwise, Lit.sort_of_pairwise]
    decide +kernel
  obtain ⟨s, ⟨a, s'⟩, hrun, h, hsat⟩ := exists_run_of_test hpass (by decide) (by decide)
  obtain ⟨m, rfl⟩ := Answer.exists_eq_sat hsat
  obtain ⟨st', hreturns⟩ := returns_of_attempt h
  exact ⟨s, m, s', hrun _, hreturns, model_of_sat (hrun _) hreturns⟩

/-! ## Cores -/

/-- A core is right, and an empty one is the last word until a snapshot is loaded. -/
theorem core_of_unsat {core : List Lit} (hrun : Run { plain := true } s L)
    (h : Returns (s.solve budget assumptions handler) st (.unsat core, s') st') :
    IsCore (fun w => w.Meets L.added) assumptions core ∧ (core = [] ↔ s'.ok = false) ∧
      (s'.ok = false → (∀ w : World, ¬ w.Meets L.added) ∧
        ∀ s'' L'', Calls {} s' L s'' L'' → ∀ (τ : Type) (budget' : Budget)
          (assumptions' : List Lit) (handler' : Handler (StateM τ)) (u : τ),
          ∃ u', Returns (s''.solve budget' assumptions' handler') u (.unsat [], s'') u') := by
  have hcore := core_of_solve (valid_of_run hrun) rfl h
  refine ⟨hcore.1, hcore.2, fun hno => ⟨fun w hw => ?_, fun s'' L'' hcalls τ budget' assumptions'
    handler' u => returns_of_not_ok (not_ok_of_calls hcalls hno) budget' assumptions' handler' u⟩⟩
  exact hcore.1.refuted w hw (hcore.2.2 hno ▸ by simp)

/-- Two clauses that leave one value for a variable, and an assumption of the other. -/
theorem core_of_two_clauses :
    ∃ s s', Run { plain := true } s { added := [.clause [x0, x1.neg], .clause [x0, x1]] } ∧
      Returns (s.solve {} [x0.neg] (Handler.none : Handler (StateM Unit))) ()
        (.unsat [x0.neg], s') () ∧
      IsCore (fun w => w.Meets [.clause [x0, x1.neg], .clause [x0, x1]]) [x0.neg] [x0.neg] ∧
      s'.ok = true := by
  have hpass : ((Solver.ofDemands 2 [.clause [x0, x1], .clause [x0, x1.neg]] >>= fun s =>
      s.attempt [x0.neg] Handler.none ()).toOption.any
        fun x => x.1.core? == some [x0.neg]) = true := by
    simp (disch := decide) only [Solver.ofDemands, Solver.addDemands, Solver.demand,
      Solver.addClause, Engine.addClause, Engine.addReduced, Lit.sortDistinct_of_pairwise]
    decide +kernel
  obtain ⟨s, ⟨a, s'⟩, hrun, h, hunsat⟩ := exists_run_of_test hpass (by decide) (by decide)
  obtain rfl := Answer.eq_unsat (eq_of_beq hunsat)
  obtain ⟨st', hreturns⟩ := returns_of_attempt h
  obtain ⟨hcore, hempty, -⟩ := core_of_unsat (hrun _) hreturns
  exact ⟨s, s', hrun _, hreturns, hcore, by simpa using hempty⟩

/-! ## Giving up -/

/-- What an answer promises, whatever searches were given up before. -/
def Promised (L : Ledger) (assumptions : List Lit) : Answer → Prop
  | .sat m => (∀ l ∈ assumptions, m.makesTrue l = true) ∧
      ((∀ w : World, m.Agrees w → w.Meets L.added) ↔ ¬ L.overlooked)
  | .unsat core => IsCore (fun w => w.Meets L.added) assumptions core
  | _ => True

/-- Cores are right in all runs. Models are right but for the runs in which a search was canceled
at a conflict of the ground level; there they are wrong, because the demands have no model. -/
theorem promised_of_run {a : Answer} (hrun : Run { decisionVars := true, plain := true } s L)
    (h : Returns (s.solve budget assumptions handler) st (a, s') st') :
    Promised L assumptions a ∧ (L.overlooked → ∀ w : World, ¬ w.Meets L.added) := by
  have hv := valid_of_run hrun
  have hno : s.ok = true → L.overlooked → ∀ w : World, ¬ w.Meets L.added := fun hok ho w hw =>
    hv.overlooked hok ho w (hv.exact rfl hok w hw)
  refine ⟨?_, fun ho => ?_⟩
  · cases a with
    | sat m =>
        obtain ⟨hok, -, hassumed, hmeets⟩ := model_of_solve hv rfl h
        exact ⟨hassumed, fun hall ho => hno hok ho _ (hall _ m.agrees_fill), hmeets⟩
    | unsat core => exact (core_of_solve hv rfl h).1
    | interrupted x => trivial
    | canceled => trivial
  · cases hok : s.ok with
    | true => exact hno hok ho
    | false => exact hv.refuted rfl hok

/-- All clauses of two literals over the first two variables. -/
def Demand.allPairs : List Demand :=
  [.clause [x0, x1], .clause [x0, x1.neg], .clause [x0.neg, x1], .clause [x0.neg, x1.neg]]

theorem not_meets_allPairs (w : World) : ¬ w.Meets Demand.allPairs.reverse := by
  simp only [World.Meets, List.mem_reverse, Demand.allPairs, List.forall_mem_cons, Demand.holds,
    World.clauseHolds, List.any_cons, List.any_nil, Lit.holds_neg]
  cases x0.holds w <;> cases x1.holds w <;> simp

/-- A search that gives up at its second conflict, and another search. -/
def Solver.attemptTwice (s : Solver) : Checked (Solver × Answer × Solver) := do
  let (_, s) ← s.attempt [] ConflictLimit.toHandler ⟨1, 0⟩
  let (a, s') ← s.attempt [] (Handler.none : Handler (StateM Unit)) ()
  return (s, a, s')

/-- A search that is canceled at its second conflict, and the model that the next one answers. -/
theorem overlooked_in_allPairs :
    ∃ s L m s', Run { decisionVars := true, plain := true } s L ∧ s.ok = true ∧
      Returns (s.solve {} [] (Handler.none : Handler (StateM Unit))) () (.sat m, s') () ∧
      L.added = Demand.allPairs.reverse ∧ L.overlooked ∧ Promised L [] (.sat m) ∧
      ¬ ∀ w : World, m.Agrees w → w.Meets L.added := by
  have hpass : ((Solver.ofDemands 2 Demand.allPairs >>= Solver.attemptTwice).toOption.any fun x =>
      x.1.ok && x.2.1.model?.isSome) = true := by
    simp (disch := decide) only [Solver.ofDemands, Demand.allPairs, Solver.addDemands,
      Solver.demand, Solver.addClause, Engine.addClause, Engine.addReduced,
      Lit.sortDistinct_of_pairwise]
    decide +kernel
  obtain ⟨s, ⟨s₁, a', s₂⟩, hrun, h, hsat⟩ := exists_run_of_test hpass (by decide) (by decide)
  simp only [Solver.attemptTwice, bind_eq_ok, pure_eq_ok, Prod.mk.injEq] at h
  obtain ⟨⟨a, s₁⟩, h₁, ⟨a', s₂⟩, h₂, rfl, rfl, rfl⟩ := h
  rw [Bool.and_eq_true] at hsat
  obtain ⟨m, rfl⟩ := Answer.exists_eq_sat hsat.2
  obtain ⟨st₁, hcanceled⟩ := returns_of_attempt h₁
  obtain ⟨st₂, hreturns⟩ := returns_of_attempt h₂
  have hrun₁ : Run { decisionVars := true, plain := true } s₁ _ :=
    (hrun _).call (.solve {} [] ConflictLimit.toHandler hcanceled (by simp))
  obtain ⟨hpromised, -⟩ := promised_of_run hrun₁ hreturns
  have hwrong : ¬ ∀ w : World, m.Agrees w → w.Meets Demand.allPairs.reverse :=
    fun hall => not_meets_allPairs _ (hall _ m.agrees_fill)
  -- the model is wrong, so the search before must have overlooked a conflict
  have hoverlooked := not_not.1 fun ho => hwrong (hpromised.2.2 ho)
  exact ⟨s₁, _, m, s₂, hrun₁, hsat.1, hreturns, rfl, hoverlooked, hpromised, hwrong⟩

/-! ## Consequences -/

/-- In every world that meets the demands in force, all stored constraints hold, the learnt
clauses included, and all facts and literals of the ground level. -/
theorem derived_of_run (hrun : Run { plain := true } s L) {w : World}
    (hw : ∀ d ∈ L.added, d.holds w = true) :
    (∀ h c, s.engine.store.get? h = some c → c.holds w = true) ∧
      (∀ l ∈ s.engine.database.units.toList, l.holds w = true) ∧
      ∀ l ∈ s.engine.trail.lits.toList.take s.engine.trail.groundSize, l.holds w = true := by
  have hv := valid_of_run hrun
  cases hok : s.ok with
  | false => exact absurd hw (hv.refuted rfl hok w)
  | true =>
      have hproblem := hv.exact rfl hok w hw
      have hrest := hv.resting hok
      exact ⟨hrest.fit.sound.stored w hproblem, hproblem.units,
        fun l hl => hrest.holds hproblem l (List.mem_of_mem_take hl)⟩

/-- The fact that is learnt while its negation is assumed. -/
theorem derived_from_two_clauses :
    ∃ s L, Run { plain := true } s L ∧ L.added = [.clause [x0, x1.neg], .clause [x0, x1]] ∧
      x0 ∈ s.engine.database.units.toList ∧ (∀ d ∈ L.added, d.holds (fun _ => true) = true) ∧
      (∀ h c, s.engine.store.get? h = some c → c.holds (fun _ => true) = true) ∧
      (∀ l ∈ s.engine.database.units.toList, l.holds (fun _ => true) = true) ∧
      ∀ l ∈ s.engine.trail.lits.toList.take s.engine.trail.groundSize,
        l.holds (fun _ => true) = true := by
  have hpass : ((Solver.ofDemands 2 [.clause [x0, x1], .clause [x0, x1.neg]] >>= fun s =>
      s.attempt [x0.neg] Handler.none ()).toOption.any fun x =>
        x.2.engine.database.units.toList.contains x0) = true := by
    simp (disch := decide) only [Solver.ofDemands, Solver.addDemands, Solver.demand,
      Solver.addClause, Engine.addClause, Engine.addReduced, Lit.sortDistinct_of_pairwise]
    decide +kernel
  obtain ⟨s, ⟨a, s'⟩, hrun, h, hunit⟩ := exists_run_of_test hpass (by decide) (by decide)
  obtain ⟨st', hreturns⟩ := returns_of_attempt h
  have hrun' : Run { plain := true } s' _ :=
    (hrun _).call (.solve {} [x0.neg] Handler.none hreturns (by simp))
  have hmeets : ∀ d ∈ [Demand.clause [x0, x1.neg], .clause [x0, x1]],
      d.holds (fun _ => true) = true := by decide
  exact ⟨s', _, hrun', rfl, List.contains_iff_mem.1 hunit, hmeets, derived_of_run hrun' hmeets⟩

end CardSat
