import CardSat.Proofs.Engine.Restoring
import CardSat.Proofs.Ledger.Demands
import CardSat.Proofs.Ledger.Orderly
import CardSat.Proofs.Ledger.Since

set_option autoImplicit false

/-! # What loading a snapshot brings back

A snapshot of a solver that is `ok` can be loaded as long as no older one has been loaded in
between, whatever else has happened:

* the problem is that of the save again, and later answers are right for it (`restored_of_load`),
* the forced literals are those that follow by unit propagation from the facts and the constraints
  that are left of the saved ones (`forced_of_load`).

A literal that was forced at the save through a learnt clause may fail to be forced after the load,
if the clause was removed in between (`unforced_after_load`).

A snapshot notes numbers and copies nothing. So what comes back is what the solver still has: given
constraints and facts are never removed while a snapshot counts on them, but learnt clauses are, and
going back does not learn them again. What was forced through them follows from the saved
constraints, but not by unit propagation.
-/

namespace CardSat

open Lit (x0 x1 x2)

variable {s s₁ s₂ s' : Solver} {L L₂ L' : Ledger} {snapshot : Snapshot}

/-! ## Fewer restrictions -/

/-- Calls that keep the rules of `r` keep those of `r'`. -/
structure Rules.Covers (r r' : Rules) : Prop where
  decisionVars : r'.decisionVars = true → r.decisionVars = true
  plain : r'.plain = true → r.plain = true
  uncanceled : r'.uncanceled = true → r.uncanceled = true

theorem Call.mono {r r' : Rules} (hc : r.Covers r') (h : Call r s L s' L') : Call r' s L s' L' := by
  cases h with
  | newVar negated decision hdecision h =>
      exact .newVar negated decision (fun hd => hdecision (hc.decisionVars hd)) h
  | add d hlength hplain h => exact .add d hlength (fun hp => hplain (hc.plain hp)) h
  | preprocess h => exact .preprocess h
  | solve budget assumptions handler h hcanceled =>
      exact .solve budget assumptions handler h fun hu => hcanceled (hc.uncanceled hu)
  | save h => exact .save h

theorem Run.mono {r r' : Rules} (hc : r.Covers r') (h : Run r s L) : Run r' s L := by
  induction h with
  | new h => exact .new h
  | call _ h ih => exact ih.call (h.mono hc)
  | load _ hsaved h ih => exact ih.load hsaved h

/-! ## The engine after a load -/

/-- A snapshot counts the variables, and it is taken in the incremental mode only. -/
theorem snapshot_of_save (h : s.save = .ok (snapshot, s₁)) :
    snapshot.vars = s.varCount ∧ s.engine.settings.incremental = true := by
  obtain ⟨hi, hsnap, -⟩ := Solver.save_eq_ok.1 h
  obtain ⟨-, rfl⟩ := Engine.snapshot_eq_ok.1 hsnap
  exact ⟨rfl, hi⟩

/-- A snapshot that was taken while the solver was `ok` can be loaded after all calls that do not
go back behind it. -/
theorem restored_of_since {rules : Rules} (hrun : Run rules s L) (hno : ¬ L.overlooked)
    (hok : s.ok = true) (hsave : s.save = .ok (snapshot, s₁))
    (hsince : Since rules s₁ { L with saved := (snapshot, L.added) :: L.saved } s₂ L₂) :
    ∃ s₃, s₂.load snapshot = .ok s₃ ∧ s₃.ok = true ∧
      s₃.engine.settings.incremental = true ∧
      Engine.Restored snapshot s.engine s₂.engine s₃.engine := by
  have hv := valid_of_run hrun
  have hrun₁ := hrun.call (.save hsave)
  have hrun₂ := run_of_since hrun₁ hsince
  have hv₂ := valid_of_run hrun₂
  have hlive : (snapshot, L.added) ∈ (snapshot, L.added) :: L.saved := List.mem_cons_self
  have hrecalls := hv₂.recalls _ ((saved_of_since hsince).subset hlive)
  have hrest : s.engine.Resting True :=
    { hv.resting hok with watching := fun _ => (hv.resting hok).watching hno }
  obtain ⟨-, hsnap, rfl⟩ := Solver.save_eq_ok.1 hsave
  rw [hok] at hsnap
  have hok' : snapshot.ok = true := by
    obtain ⟨-, rfl⟩ := Engine.snapshot_eq_ok.1 hsnap
    rfl
  -- what was there when the snapshot was taken has been kept since
  have hpres : Engine.Preserves snapshot s.engine s₂.engine :=
    preserves_of_since hrun₁ hlive
      ⟨rfl, rfl, fun _ _ c hc => ⟨c, hc, .refl c⟩, fun _ c hc _ => ⟨c, hc, .refl c⟩⟩ hsince
  obtain ⟨e, hroll, hrestored⟩ := Engine.restored_of_preserves hv₂.fit hrecalls.incremental
    hrecalls.restorable (orderly_of_run hrun₂) hrest hsnap hpres
  refine ⟨{ s₂ with ok := true, engine := e.report (.loaded snapshot true), pending := {} }, ?_, rfl,
    hrestored.settings.symm ▸ hrecalls.incremental, hrestored.report _⟩
  exact Solver.load_eq_ok.2
    ⟨hrecalls.incremental, true, e, hroll, by rw [hok', Bool.true_and]⟩

/-! ## The problem -/

/-- An answer is right for some demands: a model makes the assumptions and the demands true, if
all variables may be decided, and a core is one for the demands. -/
def Answer.RightFor (allDecided : Bool) (ds : List Demand) (assumptions : List Lit) :
    Answer → Prop
  | .sat m => allDecided = true →
      (∀ l ∈ assumptions, m.makesTrue l = true) ∧ ∀ w : World, m.Agrees w → w.Meets ds
  | .unsat core => IsCore (fun w => w.Meets ds) assumptions core
  | _ => True

/-- Whatever a solver is asked, its answer is right for some demands. -/
def Solver.AnswersFor (allDecided : Bool) (s : Solver) (ds : List Demand) : Prop :=
  ∀ (σ : Type) (st st' : σ) (budget : Budget) (assumptions : List Lit)
    (handler : Handler (StateM σ)) (a : Answer) (s' : Solver),
    Returns (s.solve budget assumptions handler) st (a, s') st' →
      a.RightFor allDecided ds assumptions

theorem answersFor_of_valid {rules : Rules} (hv : Valid rules s L) (hp : rules.plain = true)
    (hno : ¬ L.overlooked) : s.AnswersFor rules.decisionVars L.added := by
  intro σ st st' budget assumptions handler a s' h
  cases a with
  | sat m =>
      intro hd
      obtain ⟨-, -, hassumed, hmeets⟩ := model_of_solve hv hd h
      exact ⟨hassumed, hmeets hno⟩
  | unsat core => exact (core_of_solve hv hp h).1
  | interrupted x => trivial
  | canceled => trivial

theorem valid_of_calls {rules : Rules} (hv : Valid rules s L) (h : Calls rules s L s' L') :
    Valid rules s' L' := by
  induction h with
  | refl => exact hv
  | call _ h ih => exact valid_of_call ih h

/-- A valid solver that is `ok` is valid for its demands alone, without what was saved, if they
imply its problem. -/
theorem Valid.restart {rules : Rules} (hv : Valid rules s L) (hok : s.ok = true)
    (hexact : ∀ w : World, w.Meets L.added → s.engine.Problem w) (hno : ¬ L.overlooked)
    (rules' : Rules) (hdecides : rules'.decisionVars = true → rules.decisionVars = true) :
    Valid rules' s { added := L.added } where
  fit := hv.fit
  ground := hv.ground
  decides hd := hv.decides (hdecides hd)
  resting hok := { hv.resting hok with watching := fun _ => (hv.resting hok).watching hno }
  sound := hv.sound
  exact _ _ := hexact
  refuted _ hno := by
    rw [hok] at hno
    cases hno
  overlooked _ := False.elim
  uncanceled _ := id
  older := List.Pairwise.nil
  recalls := by simp

/-- After a load the solver is `ok`, with as many variables and given constraints as at the save.
The given constraints and the facts mean what the demands of the save mean, and the learnt clauses
follow from them, so all later answers are right for these demands and those that are added
then. -/
theorem restored_of_load {d : Bool}
    (hrun : Run { decisionVars := d, plain := true, uncanceled := true } s L)
    (hok : s.ok = true) (hsave : s.save = .ok (snapshot, s₁))
    (hsince : Since { decisionVars := d } s₁
      { L with saved := (snapshot, L.added) :: L.saved } s₂ L₂) :
    ∃ s₃, s₂.load snapshot = .ok s₃ ∧ s₃.ok = true ∧ s₃.varCount = s.varCount ∧
      s₃.clauseCount = s.clauseCount ∧
      (∀ w : World, w.Meets L.added ↔
        (∀ h ∈ s₃.engine.database.given.toList, ∀ c, s₃.engine.store.get? h = some c →
          c.holds w = true) ∧ ∀ l ∈ s₃.engine.database.units.toList, l.holds w = true) ∧
      (∀ w : World, w.Meets L.added → ∀ h c, s₃.engine.store.get? h = some c →
        c.holds w = true) ∧
      ∀ s₄ L₄, Calls { decisionVars := d, plain := true, uncanceled := true } s₃
        { added := L.added } s₄ L₄ → s₄.AnswersFor d L₄.added := by
  have hv := valid_of_run hrun
  have hno := hv.uncanceled rfl
  have hcovers : Rules.Covers { decisionVars := d, plain := true, uncanceled := true }
      { decisionVars := d } := ⟨id, by simp, by simp⟩
  have hrun' := hrun.mono hcovers
  obtain ⟨s₃, hload, hok₃, hi₃, hrestored⟩ := restored_of_since hrun' hno hok hsave hsince
  obtain ⟨younger, hyounger⟩ := saved_of_since hsince
  have hv₂ := valid_of_run (run_of_since (hrun'.call (.save hsave)) hsince)
  have hv₃ := valid_of_load hv₂.loadable hyounger.symm hload
  obtain ⟨hvars, hi⟩ := snapshot_of_save hsave
  -- the problem that comes back is that of the save, which are the demands in force then
  have hmeets : ∀ w : World, w.Meets L.added ↔ s₃.engine.Problem w := fun w => by
    rw [hrestored.problem_iff hi hi₃]
    exact ⟨hv.exact rfl hok w, hv.sound hok w⟩
  refine ⟨s₃, hload, hok₃, hrestored.varCount.trans hvars, ?_, fun w => ?_, fun w hw a c hc => ?_,
    fun s₄ L₄ hcalls => ?_⟩
  · have hsize : s₃.engine.database.given.size = s.engine.database.given.size := by
      rw [← Array.length_toList, hrestored.given, Array.length_toList]
    calc s₃.clauseCount = s₃.engine.database.given.size := hrestored.orderly.counted hi₃
      _ = s.engine.database.given.size := hsize
      _ = s.clauseCount := ((orderly_of_run hrun).counted hi).symm
  · rw [hmeets, Engine.problem_iff_of_incremental hi₃]
  · exact hrestored.resting.fit.sound.stored w ((hmeets w).1 hw) a c hc
  -- from here on the solver is like one that was given the demands afresh
  · have hrestart : Valid { decisionVars := d, plain := true, uncanceled := true } s₃
        { added := L.added } := hv₃.restart hok₃ (fun w => (hmeets w).1) id _ id
    have hv₄ := valid_of_calls hrestart hcalls
    exact answersFor_of_valid hv₄ rfl (hv₄.uncanceled rfl)

/-- Takes a snapshot and adds some demands. -/
def Solver.saveAndAdd (s : Solver) (ds : List Demand) : Checked (Snapshot × Solver) := do
  let (snapshot, s) ← s.save
  return (snapshot, ← Solver.addDemands ds s)

/-- Two facts that contradict the saved clause, and the load that drops them. -/
theorem restored_from_contradiction :
    ∃ s s₁ s₂ s₃ L L₂ snapshot,
      Run { decisionVars := true, plain := true, uncanceled := true } s L ∧ s.ok = true ∧
      s.save = .ok (snapshot, s₁) ∧
      Since { decisionVars := true } s₁ { L with saved := (snapshot, L.added) :: L.saved } s₂ L₂ ∧
      s₂.ok = false ∧ s₂.load snapshot = .ok s₃ ∧ s₃.ok = true ∧
      s₃.varCount = s.varCount ∧ s₃.clauseCount = s.clauseCount ∧
      s₃.AnswersFor true [.clause [x0, x1]] := by
  have hpass : ((Solver.ofDemands 2 [.clause [x0, x1]] >>= fun s =>
      s.saveAndAdd [.clause [x0.neg], .clause [x1.neg]] >>= fun x => return (s, x)).toOption.any
        fun x => x.1.ok && !x.2.2.ok) = true := by
    simp (disch := decide) only [Solver.ofDemands, Solver.saveAndAdd, Solver.addDemands, Solver.demand,
      Solver.addClause, Engine.addClause, Engine.addReduced, Lit.sortDistinct_of_pairwise]
    decide +kernel
  obtain ⟨s, ⟨s', snapshot, s₃⟩, hrun, h, htest⟩ :=
    exists_run_of_test hpass (by decide) (by decide)
  simp only [bind_eq_ok, pure_eq_ok, Prod.mk.injEq] at h
  obtain ⟨_, hx, rfl, rfl, rfl⟩ := h
  simp only [Solver.saveAndAdd, bind_eq_ok, pure_eq_ok, Prod.mk.injEq] at hx
  obtain ⟨⟨snapshot, s₁⟩, hsave, s₃, hadd, rfl, rfl⟩ := hx
  simp only [Bool.and_eq_true, Bool.not_eq_true'] at htest
  have hsince : Since { decisionVars := true } s₁
      { added := [.clause [x0, x1]], saved := [(snapshot, [.clause [x0, x1]])] } s₃ _ :=
    since_of_calls (calls_of_addDemands .refl (by decide) (by decide) hadd)
  obtain ⟨s₄, hload, hok, hvars, hclauses, -, -, hanswers⟩ :=
    restored_of_load (hrun _) htest.1 hsave hsince
  exact ⟨s, s₁, s₃, s₄, _, _, snapshot, hrun _, htest.1, hsave, hsince, htest.2, hload, hok, hvars,
    hclauses, hanswers s₄ _ .refl⟩

/-! ## Forced literals -/

/-- At the ground level the forced literals are those of the trail. -/
theorem isForced_of_ground {l : Lit} (hv : s.engine.trail.Valid)
    (hground : s.engine.trail.level = 0) (hl : l.var.index < s.varCount) :
    ∃ b, s.isForced l = .ok b ∧ (b = true ↔ l ∈ s.engine.trail) := by
  obtain ⟨x, hx⟩ : Succeeds (s.value l) := Trail.succeeds_value hl
  obtain ⟨-, rfl⟩ := Trail.value_eq_ok.1 hx
  obtain ⟨c, hc⟩ := Trail.succeeds_cell hl
  obtain ⟨-, rfl⟩ := Trail.cell_eq_ok.1 hc
  have hlevel : s.level l.var = .ok ((if (s.engine.trail.cellOf l.var).value.isUnset then none
      else some (s.engine.trail.cellOf l.var)).map Cell.level) := by
    simp only [Solver.level, Trail.assigned?, bind_eq_ok, pure_eq_ok]
    exact ⟨_, ⟨_, hc, rfl⟩, rfl⟩
  refine ⟨_, bind_eq_ok.2 ⟨_, hx, bind_eq_ok.2 ⟨_, hlevel, rfl⟩⟩, ?_⟩
  rw [Bool.and_eq_true, beq_iff_eq, hv.truth_yes]
  refine and_iff_left_of_imp fun hmem => ?_
  -- a literal of the trail has a value, and there is no level but the lowest
  have hset : (s.engine.trail.cellOf l.var).value.isUnset = false := by
    rw [Bool.eq_false_iff, ne_eq, Trail.isUnset_iff, (hv.truth_yes l).2 hmem]
    simp
  have hlow : s.engine.trail.levelOf l.var = 0 :=
    Nat.le_zero.1 (hground ▸ hv.levelOf_le hmem)
  rw [hset]
  exact beq_iff_eq.2 (congrArg some hlow)

/-- After a load the forced literals are those that unit propagation derives from the facts of
the save by means of the constraints that are left. These are all the given ones of the save, and
those of its learnt clauses that have not been removed since. Each of the literals was forced at
the save. -/
theorem forced_of_load {rules : Rules} (hrun : Run rules s L) (hno : ¬ L.overlooked)
    (hok : s.ok = true) (hsave : s.save = .ok (snapshot, s₁))
    (hsince : Since rules s₁ { L with saved := (snapshot, L.added) :: L.saved } s₂ L₂) :
    ∃ s₃, s₂.load snapshot = .ok s₃ ∧ s₃.ok = true ∧
      s₃.engine.database.units.toList = s.engine.database.units.toList ∧
      s₃.engine.database.given.toList = s.engine.database.given.toList ∧
      (∀ h ∈ s.engine.database.given.toList, ∀ c, s.engine.store.get? h = some c →
        ∃ c', s₃.engine.store.get? h = some c' ∧ c.Same c') ∧
      (∀ h c', s₃.engine.store.get? h = some c' →
        ∃ c, s.engine.store.get? h = some c ∧ c.Same c') ∧
      ∀ l : Lit, l.var.index < s.varCount → ∃ before after,
        s.isForced l = .ok before ∧ s₃.isForced l = .ok after ∧
        (after = true ↔ s₃.engine.store.Derivable s₃.engine.database.units.toList l) ∧
        (after = true → before = true) := by
  have hv := valid_of_run hrun
  obtain ⟨s₃, hload, hok₃, -, hrestored⟩ := restored_of_since hrun hno hok hsave hsince
  obtain ⟨hvars, -⟩ := snapshot_of_save hsave
  refine ⟨s₃, hload, hok₃, hrestored.units, hrestored.given, hrestored.stored, hrestored.old,
    fun l hl => ?_⟩
  obtain ⟨before, hbefore, hiff⟩ := isForced_of_ground hv.fit.sane.trail hv.ground hl
  have hl₃ : l.var.index < s₃.varCount := by
    rw [Solver.varCount, hrestored.varCount, hvars]
    exact hl
  obtain ⟨after, hafter, hiff₃⟩ := isForced_of_ground hrestored.resting.fit.sane.trail
    hrestored.resting.ground hl₃
  refine ⟨before, after, hbefore, hafter, ?_, fun h => hiff.2 (hrestored.saved l (hiff₃.1 h))⟩
  rw [hiff₃]
  exact hrestored.mem_iff l

/-- A literal that is forced by a given clause and a fact is forced again after the load. -/
theorem forced_from_clause_and_fact :
    ∃ s s₁ s₂ s₃ L L₂ snapshot, Run {} s L ∧ ¬ L.overlooked ∧ s.ok = true ∧
      s.save = .ok (snapshot, s₁) ∧
      Since {} s₁ { L with saved := (snapshot, L.added) :: L.saved } s₂ L₂ ∧ s₂.ok = false ∧
      s₂.load snapshot = .ok s₃ ∧ s₃.isForced x1 = .ok true ∧
      s₃.engine.store.Derivable s₃.engine.database.units.toList x1 ∧
      s.isForced x1 = .ok true := by
  have hpass : ((Solver.ofDemands 2 [.clause [x0.neg, x1], .clause [x0]] >>= fun s =>
      s.saveAndAdd [.clause [x1.neg]] >>= fun x => x.2.load x.1 >>= fun s₃ =>
      s₃.isForced x1 >>= fun after => return (s, x.2, after)).toOption.any fun x =>
        x.1.ok && decide (x1.var.index < x.1.varCount) && !x.2.1.ok && x.2.2) = true := by
    simp (disch := decide) only [Solver.ofDemands, Solver.saveAndAdd, Solver.addDemands, Solver.demand,
      Solver.addClause, Engine.addClause, Engine.addReduced, Lit.sortDistinct_of_pairwise]
    decide +kernel
  obtain ⟨s, ⟨s', s₂', after⟩, hrun, h, htest⟩ :=
    exists_run_of_test hpass (by decide) (by decide)
  simp only [bind_eq_ok, pure_eq_ok, Prod.mk.injEq] at h
  obtain ⟨⟨snapshot, s₂⟩, hx, s₃, hload, after, hafter, rfl, rfl, rfl⟩ := h
  simp only [Solver.saveAndAdd, bind_eq_ok, pure_eq_ok, Prod.mk.injEq] at hx
  obtain ⟨⟨snapshot, s₁⟩, hsave, s₂, hadd, rfl, rfl⟩ := hx
  simp only [Bool.and_eq_true, Bool.not_eq_true', decide_eq_true_eq] at htest
  obtain ⟨⟨⟨hok, hvar⟩, hno⟩, rfl⟩ := htest
  have hsince : Since {} s₁ ⟨[.clause [x0], .clause [x0.neg, x1]],
      [(snapshot, [.clause [x0], .clause [x0.neg, x1]])], False⟩ s₂ _ :=
    since_of_calls (calls_of_addDemands .refl (by decide) (by decide) hadd)
  obtain ⟨s₄, hload₄, -, -, -, -, -, hforced⟩ := forced_of_load (hrun _) id hok hsave hsince
  obtain rfl := Except.ok.inj (hload.symm.trans hload₄)
  obtain ⟨before, after, hbefore, hafter', hiff, hsub⟩ := hforced x1 hvar
  obtain rfl := Except.ok.inj (hafter.symm.trans hafter')
  exact ⟨s, s₁, s₂, s₃, _, _, snapshot, hrun _, id, hok, hsave, hsince, hno, hload, hafter,
    hiff.1 rfl, hsub rfl ▸ hbefore⟩

/-- Learns the clause of `x0` and `x1`, makes it force `x0`, and takes a snapshot. -/
def Solver.learnAndSave (s : Solver) : Checked (Answer × Solver × Snapshot × Solver) := do
  let (a, s) ← s.attempt [x0.neg, x1.neg] Handler.none ()
  let (_, s) ← s.demand (.clause [x1.neg])
  let (snapshot, s') ← s.save
  return (a, s, snapshot, s')

/-- Solves, preprocesses and loads a snapshot. -/
def Solver.preprocessAndLoad (s : Solver) (snapshot : Snapshot) : Checked (Answer × Solver) := do
  let (a, s) ← s.attempt [] Handler.none ()
  let (_, s) ← s.preprocess
  return (a, ← s.load snapshot)

/-- A literal that is forced by a learnt clause when a snapshot is taken. Preprocessing removes the
clause, and when the snapshot is loaded the literal is not forced any more. -/
theorem unforced_after_load :
    ∃ s s₁ s₂ s₃ L L₂ snapshot,
      Run { decisionVars := true, plain := true, uncanceled := true } s L ∧ s.ok = true ∧
      s.save = .ok (snapshot, s₁) ∧
      Since { decisionVars := true, plain := true, uncanceled := true } s₁
        { L with saved := (snapshot, L.added) :: L.saved } s₂ L₂ ∧
      s₂.load snapshot = .ok s₃ ∧ s.isForced x0 = .ok true ∧ s₃.isForced x0 = .ok false := by
  have hpass : ((Solver.ofDemands 3 [.clause [x0, x1, x2], .clause [x0, x1, x2.neg]] >>= fun s =>
      s.learnAndSave >>= fun x => x.2.1.isForced x0 >>= fun before =>
      x.2.2.2.preprocessAndLoad x.2.2.1 >>= fun y => y.2.isForced x0 >>= fun after =>
      return (x.1, x.2.1, before, y.1, after)).toOption.any fun x =>
        x.1.core?.isSome && x.2.1.ok && x.2.2.1 && x.2.2.2.1.model?.isSome &&
          !x.2.2.2.2) = true := by
    simp (disch := decide) only [Solver.ofDemands, Solver.learnAndSave, Solver.preprocessAndLoad,
      Solver.addDemands, Solver.demand, Solver.addClause, Engine.addClause, Engine.addReduced,
      Lit.sortDistinct_of_pairwise]
    decide +kernel
  obtain ⟨s, ⟨learnt, s', before, found, after⟩, hrun, h, htest⟩ :=
    exists_run_of_test hpass (by decide) (by decide)
  simp only [Solver.learnAndSave, Solver.preprocessAndLoad, bind_eq_ok, pure_eq_ok,
    Prod.mk.injEq] at h
  -- a clause is learnt and forces a literal, the clause is simplified away, and the state is loaded
  obtain ⟨_, ⟨⟨learnt, s₀⟩, hlearn, ⟨added, s₁⟩, hadd, ⟨snapshot, s₂⟩, hsave, rfl⟩, before, hbefore,
    _, ⟨⟨found, s₃⟩, hfind, ⟨processed, s₄⟩, hprocess, s₅, hload, rfl⟩, after, hafter, rfl, rfl, rfl,
    rfl, rfl⟩ := h
  simp only [Bool.and_eq_true, Bool.not_eq_true'] at htest
  obtain ⟨⟨⟨⟨hcore, hok⟩, rfl⟩, hmodel⟩, rfl⟩ := htest
  obtain ⟨u, hlearnt⟩ := returns_of_attempt hlearn
  obtain ⟨u', hfound⟩ := returns_of_attempt hfind
  have hrun₁ := ((hrun { decisionVars := true, plain := true, uncanceled := true }).call
    (.solve {} [x0.neg, x1.neg] Handler.none hlearnt
      fun _ => Answer.ne_canceled_of_core hcore)).call
    (.add (.clause [x1.neg]) (by decide) (fun _ => trivial) hadd)
  exact ⟨s₁, s₂, s₄, s₅, _, _, snapshot, hrun₁, hok, hsave, ((Since.refl.call
    (.solve {} [] Handler.none hfound fun _ => Answer.ne_canceled_of_model hmodel)).call
    (.preprocess hprocess)), hload, hbefore, hafter⟩

end CardSat
