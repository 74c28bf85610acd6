import CardSat.Proofs.Ledger.Valid

set_option autoImplicit false

/-! # Calls that do not search

A call that neither searches nor goes back does little to an engine: it adds a variable, takes in
something while the engine rests, or makes a note (`Engine.TakesIn`). An exact cardinality
constraint does it twice. What these three steps keep is kept by all such calls
(`takesIn_of_demand` and its like), and by a solver that is not `ok` it is kept for nothing.
-/

namespace CardSat

/-- What the calls do to an engine that neither search nor go back. -/
inductive Engine.TakesIn (good : Prop) : Engine → Engine → Prop
  | refl (e : Engine) : TakesIn good e e
  | newVar {e e' : Engine} {v : Var} {negated decision : Bool} (hf : e.Fit fun _ => False)
      (h : e.newVar negated decision = .ok (v, e')) : TakesIn good e e'
  | adds {e e' : Engine} {news : World → Prop} {b : Bool} (hr : e.Resting good)
      (h : e.Adds news good b e') : TakesIn good e e'
  | report {e : Engine} (event : Event) (hf : e.Fit fun _ => False) : TakesIn good e (e.report event)
  | trans {e₁ e₂ e₃ : Engine} (h : TakesIn good e₁ e₂) (h' : TakesIn good e₂ e₃) :
      TakesIn good e₁ e₃

theorem Engine.TakesIn.evolves {good : Prop} {e e' : Engine} (h : e.TakesIn good e') :
    e.Evolves e' := by
  induction h with
  | refl => exact .refl _
  | newVar hf h => exact (Engine.newVar_of_newVar hf h).evolves
  | adds _ h => exact h.evolves
  | report event hf => exact (Engine.reaches_of_report hf event).evolves
  | trans _ _ ih ih' => exact ih.trans ih'

variable {rules : Rules} {s s' : Solver} {L : Ledger} {b : Bool}

theorem takesIn_of_newVar {v : Var} {negated decision : Bool} (hv : Valid rules s L)
    (h : s.newVar negated decision = .ok (v, s')) :
    s.engine.TakesIn (¬ L.overlooked) s'.engine := by
  obtain ⟨_, he, rfl⟩ := Solver.newVar_eq_ok.1 h
  exact .newVar hv.fit he

/-- A solver that is not `ok` does not take the step. -/
theorem takesIn_of_whileOk {step : Engine → Checked (Bool × Engine)} (hv : Valid rules s L)
    (h : s.whileOk step = .ok (b, s'))
    (hstep : ∀ e', s.engine.Resting (¬ L.overlooked) → step s.engine = .ok (b, e') →
      ∃ news, s.engine.Adds news (¬ L.overlooked) b e') :
    s.engine.TakesIn (¬ L.overlooked) s'.engine := by
  rcases Solver.whileOk_eq_ok.1 h with ⟨hok, e, he, rfl⟩ | ⟨-, -, rfl⟩
  · obtain ⟨news, ha⟩ := hstep e (hv.resting hok) he
    exact .adds (hv.resting hok) ha
  · exact .refl _

theorem takesIn_of_addClause {lits : List Lit} (hv : Valid rules s L)
    (h : s.addClause lits = .ok (b, s')) : s.engine.TakesIn (¬ L.overlooked) s'.engine :=
  takesIn_of_whileOk hv h fun _ hr he => ⟨_, Engine.adds_of_addClause hr he⟩

theorem takesIn_of_addAtMost {lits : List Lit} {bound : Nat} (hv : Valid rules s L)
    (h : s.addAtMost lits bound = .ok (b, s')) : s.engine.TakesIn (¬ L.overlooked) s'.engine :=
  takesIn_of_whileOk hv h fun _ hr he =>
    let ⟨_, _, ha⟩ := Engine.adds_of_addAtMost hr he
    ⟨_, ha⟩

theorem takesIn_of_addAtLeast {lits : List Lit} {bound : Nat} (hv : Valid rules s L)
    (h : Receiver.addAtLeast s lits bound = .ok (b, s')) :
    s.engine.TakesIn (¬ L.overlooked) s'.engine := by
  simp only [Receiver.addAtLeast] at h
  split at h
  next => exact takesIn_of_addClause hv h
  next => exact takesIn_of_addAtMost hv h

/-- A demand is taken in. -/
theorem takesIn_of_demand {d : Demand} (hv : Valid rules s L) (hlength : d.lits.length < 2 ^ 63)
    (hplain : rules.plain = true → d.Plain) (h : s.demand d = .ok (b, s')) :
    s.engine.TakesIn (¬ L.overlooked) s'.engine := by
  cases d with
  | clause lits => exact takesIn_of_addClause hv h
  | atMost lits bound => exact takesIn_of_addAtMost hv h
  | atLeast lits bound => exact takesIn_of_addAtLeast hv h
  | exactly lits bound =>
      rcases Receiver.addExactly_eq_ok.1 h with ⟨s₁, h₁, h⟩ | ⟨h₁, -⟩
      · obtain ⟨hv₁, -⟩ : Valid rules s₁ { L with added := .atMost lits bound :: L.added } ∧
            s₁.ok = true := valid_of_addAtMost hv hlength hplain (fun w => World.meets_cons) h₁
        have hlower := takesIn_of_addAtLeast hv₁ h
        exact (takesIn_of_addAtMost hv h₁).trans hlower
      · exact takesIn_of_addAtMost hv h₁

/-- Preprocessing takes in nothing new. -/
theorem takesIn_of_preprocess (hv : Valid rules s L) (h : s.preprocess = .ok (b, s')) :
    s.engine.TakesIn (¬ L.overlooked) s'.engine :=
  takesIn_of_whileOk hv h fun _ hr he => ⟨_, Engine.adds_of_preprocess hr he⟩

/-- A snapshot is noted as an event. -/
theorem takesIn_of_save {snapshot : Snapshot} (hv : Valid rules s L)
    (h : s.save = .ok (snapshot, s')) : s.engine.TakesIn (¬ L.overlooked) s'.engine := by
  obtain ⟨-, -, rfl⟩ := Solver.save_eq_ok.1 h
  exact .report _ hv.fit

end CardSat
