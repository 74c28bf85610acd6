import CardSat.Proofs.Engine.Loading
import CardSat.Proofs.Ledger.TakingIn

set_option autoImplicit false

/-! # Solvers in order

Between two calls of any run the engine is in order (`orderly_of_run`), whether the solver is `ok`
or not. No restriction on the calls is needed for it: each call either leaves the engine alone or
takes steps that keep the order, and loading is only possible when going back is.

Going back to a snapshot is shown to return for an engine in order. So the order of the engine is
what makes every live snapshot loadable, and it is kept even where nothing is known of the worlds
any more, after a canceled search or in a solver that is not `ok`.
-/

namespace CardSat

variable {rules : Rules} {s s' : Solver} {L L' : Ledger}

theorem orderly_of_new {settings : Settings} (h : Solver.new settings = .ok s) :
    s.engine.Orderly := by
  simp only [Solver.new, bind_eq_ok, pure_eq_ok] at h
  obtain ⟨e, he, rfl⟩ := h
  exact Engine.orderly_of_empty he

/-- What does not search keeps the order. -/
theorem Engine.TakesIn.orderly {good : Prop} {e e' : Engine} (h : e.TakesIn good e')
    (ho : e.Orderly) : e'.Orderly := by
  induction h with
  | refl => exact ho
  | newVar hf h => exact Engine.orderly_of_newVar hf ho h
  | adds _ h => exact h.orderly ho
  | report => exact ho.bookkeeping rfl ⟨rfl, rfl, rfl⟩
  | trans _ _ ih ih' => exact ih' (ih ho)

theorem orderly_of_solve {σ : Type} {st st' : σ} {a : Answer} {budget : Budget}
    {assumptions : List Lit} {handler : Handler (StateM σ)} (hv : Valid rules s L)
    (ho : s.engine.Orderly) (h : Returns (s.solve budget assumptions handler) st (a, s') st') :
    s'.engine.Orderly := by
  rcases returns_solve h with ⟨-, -, rfl⟩ | ⟨-, ⟨_, _, hsearch⟩, -⟩
  · exact ho
  · exact Engine.orderly_of_search hv.fit ho hsearch

theorem orderly_of_load {snapshot : Snapshot} {added : List Demand}
    (hv : Loadable rules s.engine L.saved) (hlive : (snapshot, added) ∈ L.saved)
    (ho : s.engine.Orderly)
    (h : s.load snapshot = .ok s') : s'.engine.Orderly := by
  have hrecalls := hv.recalls _ hlive
  obtain ⟨hi, replayed, e, hroll, rfl⟩ := Solver.load_eq_ok.1 h
  rw [Engine.rollback, bind_eq_ok] at hroll
  obtain ⟨e₁, hdiscard, hreplay⟩ := hroll
  have ho₁ := Engine.orderly_of_discardSince hv.fit hi hrecalls.restorable ho hdiscard
  obtain ⟨-, hf₁, -, -, hground₁⟩ :=
    Engine.cut_of_discardSince hv.fit hi hrecalls.restorable hdiscard
  suffices e.Orderly from this.bookkeeping rfl ⟨rfl, rfl, rfl⟩
  split at hreplay
  next => exact Engine.orderly_of_replay (hf₁.anti fun _ => False.elim) hground₁ ho₁ hreplay
  next =>
      obtain ⟨-, rfl⟩ := Prod.mk.inj (pure_eq_ok.1 hreplay)
      exact ho₁

theorem orderly_of_call (hv : Valid rules s L) (ho : s.engine.Orderly)
    (h : Call rules s L s' L') : s'.engine.Orderly := by
  cases h with
  | newVar negated decision _ h => exact (takesIn_of_newVar hv h).orderly ho
  | add d hlength hplain h => exact (takesIn_of_demand hv hlength hplain h).orderly ho
  | preprocess h => exact (takesIn_of_preprocess hv h).orderly ho
  | solve budget assumptions handler h _ => exact orderly_of_solve hv ho h
  | save h => exact (takesIn_of_save hv h).orderly ho

/-- The engine is in order between the calls of every run. -/
theorem orderly_of_run (h : Run rules s L) : s.engine.Orderly := by
  induction h with
  | new h => exact orderly_of_new h
  | call hr h ih => exact orderly_of_call (valid_of_run hr) ih h
  | @load s₁ _ L₁ snapshot added younger older hr hsaved h ih =>
      have hlive : (snapshot, added) ∈ L₁.saved :=
        hsaved ▸ List.mem_append_right younger List.mem_cons_self
      exact orderly_of_load (valid_of_run hr).loadable hlive ih h

end CardSat
