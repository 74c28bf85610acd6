import CardSat.Proofs.Engine.Passages
import CardSat.Proofs.Ledger.Session

set_option autoImplicit false

/-! # Any calls at all

`Solver.Called` are all the calls that change a solver, at any level and in any order, with any
arguments for which they return: nothing is asked of the caller, not even that a snapshot which is
loaded was taken from this solver. Each of them is made of steps (`leads_of_called`), and so are all
runs of calls (`leads_of_lives`).

`Visits` are the engines that a life of a solver comes to, between two calls and wherever a search
picks a decision. What holds of all moments that steps can lead to holds of these
(`leads_of_visits`). The rule by which decisions are made, and that no decision variable is lost,
are statements about them.
-/

namespace CardSat

namespace Solver

/-- A call leads from one solver to the next. -/
inductive Called (s : Solver) : Solver → Prop
  | newVar {s' : Solver} {v : Var} {negated decision : Bool}
      (h : s.newVar negated decision = .ok (v, s')) : Called s s'
  | demand {s' : Solver} {b : Bool} {d : Demand} (h : s.demand d = .ok (b, s')) : Called s s'
  | preprocess {s' : Solver} {b : Bool} (h : s.preprocess = .ok (b, s')) : Called s s'
  | solve {s' : Solver} {σ : Type} {st st' : σ} {budget : Budget} {assumptions : List Lit}
      {handler : Handler (StateM σ)} {a : Answer}
      (h : Returns (s.solve budget assumptions handler) st (a, s') st') : Called s s'
  | save {s' : Solver} {snapshot : Snapshot} (h : s.save = .ok (snapshot, s')) : Called s s'
  | load {s' : Solver} {snapshot : Snapshot} (h : s.load snapshot = .ok s') : Called s s'
  | setSelectionOrder (order : List Lit) : Called s (s.setSelectionOrder order)
  | start {s' : Solver} {b : Bool} (h : s.start = .ok (b, s')) : Called s s'
  | decide {s' : Solver} {b : Bool} {v : Var} {phase : Bool} (h : s.decide v phase = .ok (b, s')) :
      Called s s'
  | undo {s' : Solver} {v : Var} (h : s.undo v = .ok s') : Called s s'
  | read (known : Var → Bool) : Called s (s.newlyImplied known).2
  | learn {s' : Solver} {b : Bool} (h : s.assertLearnt = .ok (b, s')) : Called s s'

/-- Any number of calls. -/
abbrev Lives : Solver → Solver → Prop := Relation.ReflTransGen Called

/-- The engines of a solver between two calls, and those in which a search picks a literal. -/
inductive Visits (s : Solver) : Engine → Prop
  | between {s' : Solver} (h : s.Lives s') : Visits s s'.engine
  | picking {s' : Solver} {e : Engine} {task : Task} (h : s.Lives s')
      (hp : Engine.Picking task s'.engine.opened e) : Visits s e

variable {s s' : Solver} {b : Bool} {lits : List Lit} {bound : Nat}

open Engine (Leads)

theorem leads_of_whileOk {step : Engine → Checked (Bool × Engine)}
    (hstep : ∀ {e e' : Engine} {b : Bool}, step e = .ok (b, e') → e.Leads e')
    (h : s.whileOk step = .ok (b, s')) : s.engine.Leads s'.engine := by
  rcases whileOk_eq_ok.1 h with ⟨-, e, he, rfl⟩ | ⟨-, -, rfl⟩
  · exact hstep he
  · exact .refl _

theorem leads_of_addClause (h : s.addClause lits = .ok (b, s')) : s.engine.Leads s'.engine :=
  leads_of_whileOk (fun h => (Engine.steps_of_addClause h).leads) h

theorem leads_of_addAtMost (h : s.addAtMost lits bound = .ok (b, s')) :
    s.engine.Leads s'.engine :=
  leads_of_whileOk (fun h => (Engine.steps_of_addAtMost h).leads) h

theorem leads_of_addAtLeast (h : Receiver.addAtLeast s lits bound = .ok (b, s')) :
    s.engine.Leads s'.engine := by
  simp only [Receiver.addAtLeast] at h
  split at h
  · exact leads_of_addClause h
  · exact leads_of_addAtMost h

/-- Every demand is made of steps. -/
theorem leads_of_demand {d : Demand} (h : s.demand d = .ok (b, s')) :
    s.engine.Leads s'.engine := by
  cases d with
  | clause lits => exact leads_of_addClause h
  | atMost lits bound => exact leads_of_addAtMost h
  | atLeast lits bound => exact leads_of_addAtLeast h
  | exactly lits bound =>
      rcases Receiver.addExactly_eq_ok.1 h with ⟨s₁, hupper, hlower⟩ | ⟨hupper, -⟩
      · exact Leads.trans (leads_of_addAtMost hupper) (leads_of_addAtLeast hlower)
      · exact leads_of_addAtMost hupper

theorem leads_of_keepLesson {failed : Handle} (h : s.keepLesson failed = .ok s') :
    s.engine.Leads s'.engine := by
  obtain ⟨lesson, e, hanalyze, hkept⟩ := keepsLesson_of_keepLesson h
  have ha := Leads.of_step (.analyze hanalyze)
  cases hkept with
  | unsatisfiable hcancel => exact ha.trans (.of_step (.cancelUntil hcancel))
  | unit l => exact ha
  | clause level lits => exact ha

theorem leads_of_propagateStep (h : s.propagateStep = .ok (b, s')) :
    s.engine.Leads s'.engine := by
  rcases propagateStep_eq_ok.1 h with ⟨-, e, hprop, rfl⟩ | ⟨-, a, e, hprop, hkeep⟩
  · exact .of_step (.propagate hprop)
  · exact Leads.trans (.of_step (.propagate hprop)) (leads_of_keepLesson hkeep)

/-- A decision of the caller is one step and a propagation. -/
theorem leads_of_decide {v : Var} {phase : Bool} (h : s.decide v phase = .ok (b, s')) :
    s.engine.Leads s'.engine := by
  simp only [decide, bind_eq_ok] at h
  obtain ⟨e, hdecide, h⟩ := h
  exact Leads.trans (.of_step (.decideLit hdecide)) (leads_of_propagateStep h)

/-- Learning the pending clause is made of steps. -/
theorem leads_of_assertLearnt (h : s.assertLearnt = .ok (b, s')) :
    s.engine.Leads s'.engine := by
  obtain ⟨-, lits, l, e, -, -, hlearn, hprop⟩ := assertLearnt_eq_ok.1 h
  exact (Leads.trans (Engine.leads_of_learn hlearn) (Engine.leads_of_counted e)).trans
    (leads_of_propagateStep hprop)

/-- Every call is made of steps. -/
theorem leads_of_called (h : s.Called s') : s.engine.Leads s'.engine := by
  cases h with
  | newVar h =>
      obtain ⟨e, he, rfl⟩ := newVar_eq_ok.1 h
      exact Engine.leads_of_newVar he
  | demand h => exact leads_of_demand h
  | preprocess h => exact leads_of_whileOk Engine.leads_of_preprocess h
  | solve h =>
      rcases returns_solve h with ⟨-, -, rfl⟩ | ⟨-, ⟨st₁, st₂, hsearch⟩, -⟩
      · exact .refl _
      · exact Engine.leads_of_search hsearch
  | save h =>
      obtain ⟨-, -, rfl⟩ := save_eq_ok.1 h
      exact .of_other rfl rfl
  | load h =>
      obtain ⟨-, replayed, e, hroll, rfl⟩ := load_eq_ok.1 h
      exact Leads.trans (Engine.leads_of_rollback hroll) (.of_other rfl rfl)
  | setSelectionOrder order => exact .of_step (.setOrder order)
  | start h =>
      simp only [start, bind_eq_ok, pure_eq_ok, Prod.mk.injEq] at h
      obtain ⟨⟨failed, e⟩, hprop, -, rfl⟩ := h
      exact .of_step (.propagate hprop)
  | decide h => exact leads_of_decide h
  | undo h =>
      obtain ⟨k, e, hcancel, rfl⟩ := undo_eq_ok h
      exact .of_step (.cancelUntil hcancel)
  | read known => exact .refl _
  | learn h => exact leads_of_assertLearnt h

/-- Any number of calls are made of steps. -/
theorem leads_of_lives (h : s.Lives s') : s.engine.Leads s'.engine := by
  induction h with
  | refl => exact .refl _
  | tail _ hcall ih => exact ih.trans (leads_of_called hcall)

/-- So are the ways to the states in which a search picks a literal. -/
theorem leads_of_visits {e : Engine} (h : s.Visits e) : s.engine.Leads e := by
  cases h with
  | between h => exact leads_of_lives h
  | picking h hp =>
      exact ((leads_of_lives h).trans (Engine.leads_of_opened _)).trans (Engine.leads_of_picking hp)

/-- A new solver has no variables, so nothing can be lost. -/
theorem sound_of_new {settings : Settings} (h : Solver.new settings = .ok s) (past : Var → Past) :
    Moment.Sound settings.decision ⟨s.engine, none, past⟩ := by
  simp only [new, Engine.empty, bind_eq_ok, pure_eq_ok] at h
  obtain ⟨e, ⟨d, hd, rfl⟩, rfl⟩ := h
  exact .of_waiting Trail.valid_empty ((Decisions.stocked_empty hd).mono fun v hv => by
    simpa [Trail.Free, Trail.varCount, Network.empty, Trail.empty] using hv.1)
      (Decisions.recalls_of_empty hd)

/-- No call changes how decisions are made. -/
theorem settings_of_lives {settings : Settings} (h : new settings = .ok s) (hlives : s.Lives s') :
    s'.engine.decisions.settings = settings.decision := by
  have hsound := sound_of_new h fun _ => { initial := false }
  obtain ⟨past, hpath⟩ := leads_of_lives hlives _ _ hsound
  exact (Moment.sound_of_path hsound hpath).recalls.settings

end Solver

end CardSat
