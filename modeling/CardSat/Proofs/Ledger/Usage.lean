import CardSat.Proofs.Engine.Upkeep
import CardSat.Proofs.Ledger.Session
import CardSat.Proofs.Occasions

set_option autoImplicit false

/-! # Solvers however they are used

In a `Usage` the calls of a run alternate with all calls that direct a search, at any level and
whether the solver is `ok` or not. Nothing is asked of the caller: `assertLearnt` is called wherever
it is not refused. Besides its ledger, a usage has a past: which literals the constraints have had
at the beginning of a call, or in a round of a search.

A solver is `Upkept` between any two calls (`upkept_of_usage`), and so are the engines that the next
call propagates (`kempt_of_propagates`, `kempt_of_prompts`).

## The past of a usage

A watcher holds a literal of its constraint as a blocker. A constraint that is strengthened loses
literals, and a blocker is not replaced then, so a blocker may be a literal that the constraint does
not have any more. What can be said of it is that the constraint had it once. The past collects
these literals, and it grows with each call by those of the states that the call passes
(`Solver.Remembers`).

Where less is known of a solver than in a run, less is promised: the reasons may be wrong, so
nothing is said of what an analysis finds beyond that it may be stored (`Solver.Teachable`).
-/

namespace CardSat

/-! ## Usages -/

/-- The engines in which a call that leads from `s` to `s'` may look at constraints: the first one,
and those in which a round of its search begins. -/
inductive Solver.Passes (s s' : Solver) : Engine → Prop
  | first : Passes s s' s.engine
  | round {e : Engine} (budget : Budget) (assumptions : List Lit)
      (h : s.engine.Traverses s.settings.restart budget assumptions s'.engine e) : Passes s s' e

/-- The past after a call that leads from `s` to `s'`. -/
def Solver.Remembers (s s' : Solver) (past : Handle → Lit → Prop) (h : Handle) (b : Lit) : Prop :=
  past h b ∨ ∃ e, s.Passes s' e ∧ e.Mentions h b

/-- The solvers that can be reached by calls of all kinds, with their ledgers and pasts. -/
inductive Usage : Solver → Ledger → (Handle → Lit → Prop) → Prop
  | new {settings : Settings} {s : Solver} (h : Solver.new settings = .ok s) :
      Usage s {} fun _ _ => False
  | call {s s' : Solver} {L L' : Ledger} {past : Handle → Lit → Prop} (hu : Usage s L past)
      (h : Call {} s L s' L') : Usage s' L' (s.Remembers s' past)
  | load {s s' : Solver} {L : Ledger} {past : Handle → Lit → Prop} {snapshot : Snapshot}
      {added : List Demand} {younger older : List (Snapshot × List Demand)} (hu : Usage s L past)
      (hsaved : L.saved = younger ++ (snapshot, added) :: older)
      (h : s.load snapshot = .ok s') :
      Usage s' ⟨added, (snapshot, added) :: older, False⟩ past
  | steer {s s' : Solver} {L : Ledger} {past : Handle → Lit → Prop} {b : Bool}
      (hu : Usage s L past) (h : Steer s b s') : Usage s' L past
  | learn {s s' : Solver} {L : Ledger} {past : Handle → Lit → Prop} {b : Bool}
      (hu : Usage s L past) (h : s.assertLearnt = .ok (b, s')) : Usage s' L past

/-- The engines that the calls which direct a search propagate. -/
inductive Solver.Prompts (s : Solver) : Engine → Prop
  | start : Prompts s s.engine
  | decide {e : Engine} (v : Var) (phase : Bool) (h : s.engine.decideLit (v.lit !phase) = .ok e) :
      Prompts s e
  | learn {e : Engine} {lits : Array Lit} {l : Lit} (hlevel : s.atAssertionLevel = true)
      (hclause : s.pending.clause = some lits) (hfirst : lits[0]? = some l)
      (h : s.engine.learn l lits = .ok e) : Prompts s e.decay.countTowardsLimit

variable {past past' : Handle → Lit → Prop} {s s' : Solver} {L L' : Ledger} {b : Bool}
  {e e' : Engine} {saved : List (Snapshot × List Demand)}

/-- The runs are usages. -/
theorem exists_usage_of_run (h : Run {} s L) : ∃ past, Usage s L past := by
  induction h with
  | new h => exact ⟨_, .new h⟩
  | call _ h ih =>
      obtain ⟨past, hu⟩ := ih
      exact ⟨_, hu.call h⟩
  | load _ hsaved h ih =>
      obtain ⟨past, hu⟩ := ih
      exact ⟨_, hu.load hsaved h⟩

/-! ## The invariant -/

/-- What is pending may be learnt at its level. -/
def Solver.Teachable (s : Solver) : Prop :=
  ∀ lits, s.pending.clause = some lits → ∃ r, s.pending.level = some r ∧
    (lits.size ≠ 1 → s.engine.network.Learnable r lits.toList)

/-- What is known of a solver between two calls, however it was used. -/
structure Upkept (past : Handle → Lit → Prop) (s : Solver)
    (saved : List (Snapshot × List Demand)) : Prop where
  kempt : s.engine.Kempt past
  teachable : s.Teachable
  older : saved.Pairwise fun p q => q.1.Older p.1
  retrieves : ∀ p ∈ saved, s.engine.Retrieves p.1

theorem Solver.teachable_of_none (h : s.pending.clause = none) : s.Teachable := by
  intro lits hlits
  rw [h] at hlits
  cases hlits

theorem Solver.Teachable.spares (ht : s.Teachable) (h : s.engine.Spares past s'.engine)
    (hclause : s'.pending.clause = s.pending.clause) (hlevel : s'.pending.level = s.pending.level) :
    s'.Teachable := by
  intro lits hlits
  obtain ⟨r, hr, hlearn⟩ := ht lits (hclause ▸ hlits)
  exact ⟨r, hlevel.trans hr, fun hsize => h.learnable (hlearn hsize)⟩

/-- A larger past is allowed. -/
theorem Upkept.mono (hu : Upkept past s saved) (hsub : ∀ h b, past h b → past' h b) :
    Upkept past' s saved :=
  { hu with kempt := hu.kempt.mono hsub }

/-- A step keeps a solver upkept if what is pending may still be stored. -/
theorem Upkept.upholds (hu : Upkept past s saved) (h : s.engine.Upholds past s'.engine)
    (ht : s'.Teachable) : Upkept past s' saved :=
  ⟨h.kempt, ht, hu.older, fun p hp => (hu.retrieves p hp).upholds h⟩

/-- A step that does not learn keeps what is pending. -/
theorem Upkept.spares (hu : Upkept past s saved) (h : s.engine.Spares past s'.engine)
    (hclause : s'.pending.clause = s.pending.clause) (hlevel : s'.pending.level = s.pending.level) :
    Upkept past s' saved :=
  hu.upholds h.toUpholds (hu.teachable.spares h hclause hlevel)

/-! ## Calls that do not go back -/

/-- A call that keeps the engine kempt, and after which a clause can be learnt still. -/
structure Solver.Keeps (past : Handle → Lit → Prop) (s s' : Solver) : Prop where
  spares : s.engine.Spares past s'.engine
  idle : s'.engine.Idle

namespace Solver

theorem Keeps.refl (hk : s.engine.Kempt past) (hidle : s.engine.Idle) : s.Keeps past s :=
  ⟨.refl hk, hidle⟩

theorem Keeps.trans {s'' : Solver} (h : s.Keeps past s') (h' : s'.Keeps past s'') :
    s.Keeps past s'' :=
  ⟨h.spares.trans h'.spares, h'.idle⟩

theorem keeps_of_finishes (h : s.engine.Finishes past s'.engine) : s.Keeps past s' :=
  ⟨h.toUpholds.spares h.ground, h.idle⟩

variable (hk : s.engine.Kempt past) (hidle : s.engine.Idle)
include hk hidle

theorem keeps_of_newVar {v : Var} {negated decision : Bool}
    (h : s.newVar negated decision = .ok (v, s')) : s.Keeps past s' := by
  obtain ⟨_, he, rfl⟩ := newVar_eq_ok.1 h
  obtain ⟨hs, -, hidle'⟩ := Engine.spares_of_newVar hk he
  exact ⟨hs, hidle' hidle⟩

theorem keeps_of_whileOk {step : Engine → Checked (Bool × Engine)}
    (h : s.whileOk step = .ok (b, s'))
    (hstep : ∀ e, step s.engine = .ok (b, e) → s.engine.Finishes past e) : s.Keeps past s' := by
  rcases whileOk_eq_ok.1 h with ⟨-, e, he, rfl⟩ | ⟨-, -, rfl⟩
  · exact keeps_of_finishes (hstep e he)
  · exact .refl hk hidle

theorem keeps_of_addClause {lits : List Lit} (h : s.addClause lits = .ok (b, s')) :
    s.Keeps past s' :=
  keeps_of_whileOk hk hidle h fun _ he => Engine.finishes_of_addClause hk hidle he

theorem keeps_of_addAtMost {lits : List Lit} {bound : Nat}
    (h : s.addAtMost lits bound = .ok (b, s')) : s.Keeps past s' :=
  keeps_of_whileOk hk hidle h fun _ he => Engine.finishes_of_addAtMost hk hidle he

theorem keeps_of_addAtLeast {lits : List Lit} {bound : Nat}
    (h : Receiver.addAtLeast s lits bound = .ok (b, s')) : s.Keeps past s' := by
  simp only [Receiver.addAtLeast] at h
  split at h
  next => exact keeps_of_addClause hk hidle h
  next => exact keeps_of_addAtMost hk hidle h

/-- Every demand keeps a solver upkept. -/
theorem keeps_of_demand {d : Demand} (h : s.demand d = .ok (b, s')) : s.Keeps past s' := by
  cases d with
  | clause lits => exact keeps_of_addClause hk hidle h
  | atMost lits bound => exact keeps_of_addAtMost hk hidle h
  | atLeast lits bound => exact keeps_of_addAtLeast hk hidle h
  | exactly lits bound =>
      rcases Receiver.addExactly_eq_ok.1 h with ⟨s₁, hupper, hlower⟩ | ⟨hupper, -⟩
      · have h₁ : s.Keeps past s₁ := keeps_of_addAtMost hk hidle hupper
        exact h₁.trans (keeps_of_addAtLeast h₁.spares.kempt h₁.idle hlower)
      · exact keeps_of_addAtMost hk hidle hupper

/-- Clauses are only stripped of literals that they have in the engines which the call passes. -/
theorem keeps_of_call (hpast : ∀ e, s.Passes s' e → ∀ h b, e.Mentions h b → past h b)
    (h : Call {} s L s' L') : s.Keeps past s' := by
  cases h with
  | newVar negated decision _ h => exact keeps_of_newVar hk hidle h
  | add d _ _ h => exact keeps_of_demand hk hidle h
  | preprocess h =>
      exact keeps_of_whileOk hk hidle h fun _ he =>
        Engine.finishes_of_preprocess hk (hpast _ .first) he
  | solve budget assumptions handler h _ =>
      rcases returns_solve h with ⟨-, -, rfl⟩ | ⟨-, ⟨_, _, hsearch⟩, -⟩
      · exact .refl hk hidle
      · have hrounds := fun x hx => hpast x (.round budget assumptions hx)
        exact keeps_of_finishes (Engine.finishes_of_search hk hrounds hsearch)
  | save h =>
      obtain ⟨-, -, rfl⟩ := save_eq_ok.1 h
      exact ⟨(Engine.Spares.refl hk).noted rfl rfl (.refl _), hidle⟩

end Solver

/-- Every call of a run keeps a solver upkept, with a past that remembers it. -/
theorem upkept_of_call (hu : Upkept past s L.saved) (hidle : s.engine.Idle)
    (h : Call {} s L s' L') :
    Upkept (s.Remembers s' past) s' L'.saved ∧ s'.engine.Idle := by
  -- the past grows before the call is looked at, because the call may refer to it
  have hu₁ : Upkept (s.Remembers s' past) s L.saved := hu.mono fun _ _ => Or.inl
  have hkeeps := Solver.keeps_of_call hu₁.kempt hidle
    (fun e he _ _ hm => Or.inr ⟨e, he, hm⟩) h
  have hpending := pending_of_call h
  have hu₂ := hu₁.spares hkeeps.spares (congrArg Pending.clause hpending)
    (congrArg Pending.level hpending)
  refine ⟨?_, hkeeps.idle⟩
  cases h with
  | newVar | add | preprocess | solve => exact hu₂
  | @save _ _ snapshot h =>
      obtain ⟨hi, hsnap, rfl⟩ := Solver.save_eq_ok.1 h
      refine ⟨hu₂.kempt, hu₂.teachable, List.pairwise_cons.2 ⟨fun p hp => ?_, hu₂.older⟩,
        List.forall_mem_cons.2 ⟨?_, hu₂.retrieves⟩⟩
      · -- what an old snapshot counts on is there now
        have hold := (hu.retrieves p hp).2
        obtain ⟨-, rfl⟩ := Engine.snapshot_eq_ok.1 hsnap
        exact ⟨hold.vars, hold.clauses, hold.learnts, hold.units⟩
      · have hsame : s.engine.Upholds past (s.engine.report (.saved snapshot)) :=
          (Engine.Upholds.refl hu.kempt).noted rfl rfl (.refl _)
        exact (Engine.retrieves_of_snapshot hu.kempt hi hsnap).upholds hsame

/-! ## Going back -/

/-- So does loading a snapshot. -/
theorem upkept_of_load {snapshot : Snapshot} {added : List Demand}
    {younger older : List (Snapshot × List Demand)} (hu : Upkept past s L.saved)
    (hsaved : L.saved = younger ++ (snapshot, added) :: older) (h : s.load snapshot = .ok s') :
    Upkept past s' ((snapshot, added) :: older) ∧ s'.engine.Idle := by
  have hmem : ∀ p ∈ (snapshot, added) :: older, p ∈ L.saved := fun p hp =>
    hsaved ▸ List.mem_append_right _ hp
  have hpairwise := hu.older
  rw [hsaved, List.pairwise_append] at hpairwise
  obtain ⟨-, replayed, e, hroll, rfl⟩ := Solver.load_eq_ok.1 h
  have hback := Engine.reverts_of_rollback hu.kempt
    (hu.retrieves _ (hmem (snapshot, added) List.mem_cons_self)) hroll
  have hnoted : e.Upholds past (e.report (.loaded snapshot (snapshot.ok && replayed))) :=
    (Engine.Upholds.refl hback.kempt).noted rfl rfl (.refl _)
  refine ⟨⟨hnoted.kempt, Solver.teachable_of_none rfl, hpairwise.2.1, fun p hp => ?_⟩, hback.idle⟩
  -- what is live after the load is the snapshot itself and older ones
  have holder := older_of_live hu.older hsaved p hp
  exact (hback.retrieves p.1 holder (hu.retrieves p (hmem p hp))).upholds hnoted

/-! ## Directing the search -/

/-- The lesson of a conflict may be learnt. -/
theorem upkept_of_keepLesson {failed : Handle} (hu : Upkept past s saved) (hidle : s.engine.Idle)
    (hconf : s.engine.network.Conflict failed) (h : s.keepLesson failed = .ok s') :
    Upkept past s' saved ∧ s'.engine.Idle := by
  obtain ⟨lesson, e, hanalyze, hkept⟩ := Solver.keepsLesson_of_keepLesson h
  obtain ⟨hs, htrail, hlearn⟩ := Engine.spares_of_analyze hu.kempt hconf hanalyze
  have hidle₁ : e.Idle := by
    rw [Engine.Idle, htrail]
    exact hidle
  cases hkept with
  | unsatisfiable hcancel =>
      have hf := Engine.finishes_of_cancelUntil hs.kempt (.inl hidle₁) hcancel
      exact ⟨hu.upholds (hs.toUpholds.trans hf.toUpholds) (Solver.teachable_of_none rfl), hf.idle⟩
  | unit l =>
      -- of a clause of one literal nothing is asked
      refine ⟨hu.upholds hs.toUpholds fun lits hlits => ⟨0, rfl, fun hsize => ?_⟩, hidle₁⟩
      obtain rfl := Option.some.inj hlits
      exact absurd rfl hsize
  | clause r lits =>
      refine ⟨hu.upholds hs.toUpholds fun lits' hlits => ⟨r, rfl, fun _ => ?_⟩, hidle₁⟩
      obtain rfl := Option.some.inj hlits
      exact (hlearn r lits rfl).1

/-- So does a propagation with its lesson. -/
theorem upkept_of_propagateStep (hu : Upkept past s saved) (h : s.propagateStep = .ok (b, s')) :
    Upkept past s' saved ∧ s'.engine.Idle := by
  rcases Solver.propagateStep_eq_ok.1 h with ⟨-, e, hprop, rfl⟩ | ⟨-, a, e, hprop, hkeep⟩
  · obtain ⟨hs, hidle, -, -⟩ := Engine.spares_of_propagate hu.kempt hprop
    exact ⟨hu.spares hs rfl rfl, hidle⟩
  · obtain ⟨hs, hidle, -, hconf⟩ := Engine.spares_of_propagate hu.kempt hprop
    have hu₁ : Upkept past { s with engine := e } saved := hu.spares hs rfl rfl
    exact upkept_of_keepLesson hu₁ hidle (hconf a rfl) hkeep

/-- The pending clause is learnt at its level. -/
theorem upholds_of_pending {lits : Array Lit} {l : Lit} (hu : Upkept past s saved)
    (hlevel : s.atAssertionLevel = true) (hclause : s.pending.clause = some lits)
    (hfirst : lits[0]? = some l) (h : s.engine.learn l lits = .ok e) :
    s.engine.Upholds past e.decay.countTowardsLimit := by
  -- that the call is not refused means that this is the level of the clause
  obtain ⟨r, hr, hlearn⟩ := hu.teachable lits hclause
  rw [Solver.atAssertionLevel, hr, beq_iff_eq] at hlevel
  obtain rfl := Option.some.inj hlevel
  have hl := (Engine.upholds_of_learn hu.kempt hfirst hlearn h).1
  exact hl.trans (Engine.spares_of_decay hl.kempt).toUpholds

/-- So does learning the pending clause. -/
theorem upkept_of_assertLearnt (hu : Upkept past s saved) (h : s.assertLearnt = .ok (b, s')) :
    Upkept past s' saved ∧ s'.engine.Idle := by
  obtain ⟨hlevel, lits, l, e, hclause, hfirst, hlearn, hprop⟩ := Solver.assertLearnt_eq_ok.1 h
  have hl := upholds_of_pending hu hlevel hclause hfirst hlearn
  have hu₁ : Upkept past (s.learnt e) saved := hu.upholds hl (Solver.teachable_of_none rfl)
  exact upkept_of_propagateStep hu₁ hprop

/-- So does every step that directs the search. -/
theorem upkept_of_steer (hu : Upkept past s saved) (hidle : s.engine.Idle) (h : Steer s b s') :
    Upkept past s' saved ∧ s'.engine.Idle := by
  cases h with
  | start h =>
      simp only [Solver.start, bind_eq_ok, pure_eq_ok, Prod.mk.injEq] at h
      obtain ⟨⟨failed, e⟩, hprop, -, rfl⟩ := h
      obtain ⟨hs, hidle', -⟩ := Engine.spares_of_propagate hu.kempt hprop
      exact ⟨hu.spares hs rfl rfl, hidle'⟩
  | decide v phase h =>
      simp only [Solver.decide, bind_eq_ok] at h
      obtain ⟨e, hdecide, h⟩ := h
      have hs := Engine.spares_of_decideLit hu.kempt hidle hdecide
      have hu₁ : Upkept past { s.setUnread true with engine := e } saved := hu.spares hs rfl rfl
      exact upkept_of_propagateStep hu₁ h
  | undo v h =>
      obtain ⟨k, e, hcancel, rfl⟩ := Solver.undo_eq_ok h
      exact ⟨hu.spares (Engine.spares_of_cancelUntil hu.kempt hcancel) rfl rfl,
        Engine.idle_of_cancelUntil hu.kempt.valid hidle hcancel⟩
  | read known => exact ⟨hu.spares (.refl hu.kempt) rfl rfl, hidle⟩
  | learn _ h => exact upkept_of_assertLearnt hu h

/-! ## Usages -/

theorem upkept_of_new {settings : Settings} (h : Solver.new settings = .ok s) :
    Upkept (fun _ _ => False) s [] ∧ s.engine.Idle := by
  obtain ⟨e, he, h⟩ := bind_eq_ok.1 h
  obtain rfl := pure_eq_ok.1 h
  have hr : e.Resting True := (Engine.resting_of_empty he).1
  exact ⟨⟨Engine.kempt_of_empty he, Solver.teachable_of_none rfl, .nil, by simp⟩, hr.idle⟩

/-- However a solver was used, between two calls it is in order and nothing waits. -/
theorem upkept_of_usage (hu : Usage s L past) : Upkept past s L.saved ∧ s.engine.Idle := by
  induction hu with
  | new h => exact upkept_of_new h
  | call _ h ih => exact upkept_of_call ih.1 ih.2 h
  | load _ hsaved h ih => exact upkept_of_load ih.1 hsaved h
  | steer _ h ih => exact upkept_of_steer ih.1 ih.2 h
  | learn _ h ih => exact upkept_of_assertLearnt ih.1 h

/-! ## Propagations -/

namespace Engine

theorem kempt_of_clausePropagates {lits : List Lit} (hk : e.Kempt past) (hidle : e.Idle)
    (h : e.ClausePropagates lits e') : e'.Kempt past := by
  cases h with
  | tried _ h =>
      have hopen := spares_of_openLevel hk hidle
      exact (spares_of_refute hopen.kempt h).1.kempt
  | fact hchecked _ h =>
      rcases hchecked with ⟨-, himplies⟩ | ⟨-, rfl⟩
      · have hs := finishes_of_implies hk hidle himplies
        exact (upholds_of_addFact hs.kempt h).1.kempt
      · exact (upholds_of_addFact hk h).1.kempt

theorem kempt_of_atMostPropagates {lits : List Lit} {bound : Nat} (hk : e.Kempt past)
    (h : e.AtMostPropagates lits bound e') : e'.Kempt past := by
  obtain ⟨-, -, h⟩ := h
  rw [← Array.foldlM_toList] at h
  exact (upholds_of_addFacts hk h).1.kempt

theorem kempt_of_replaying {facts : List Lit} (h : Replaying facts e e') (hk : e.Kempt past) :
    e'.Kempt past := by
  induction h with
  | here htry => exact (spares_of_tryAssign hk htry).1.kempt
  | next htry hprop _ ih =>
      have hs := (spares_of_tryAssign hk htry).1
      exact ih (spares_of_propagate hs.kempt hprop).1.kempt

end Engine

theorem kempt_of_demand {d : Demand} (h : DemandPropagates s d e) (hk : s.engine.Kempt past)
    (hidle : s.engine.Idle) : e.Kempt past := by
  induction h with
  | clause _ h => exact Engine.kempt_of_clausePropagates hk hidle h
  | atMost _ h => exact Engine.kempt_of_atMostPropagates hk h
  | tooMany _ _ ih => exact ih hk hidle
  | atLeast _ _ ih => exact ih hk hidle
  | upper _ ih => exact ih hk hidle
  | lower hupper _ ih =>
      have h₁ := Solver.keeps_of_addAtMost hk hidle hupper
      exact ih h₁.spares.kempt h₁.idle

/-- The engines that the next call propagates are kempt, whatever their constraints have had. -/
theorem kempt_of_propagates (hu : Upkept past s L.saved) (hidle : s.engine.Idle)
    (h : s.Propagates L e) : e.Kempt fun _ _ => True := by
  have hk : s.engine.Kempt fun _ _ => True := hu.kempt.mono fun _ _ _ => trivial
  cases h with
  | add d h => exact kempt_of_demand h hk hidle
  | preprocess => exact hk
  | solve budget assumptions _ h =>
      have hopened : s.engine.Upholds (fun _ _ => True) s.engine.opened :=
        (Engine.Upholds.refl hk).noted rfl rfl (.refl _)
      exact (Engine.upholds_of_round hopened.kempt (fun _ _ _ _ _ _ => trivial) h).kempt
  | load hlive _ hdiscard h =>
      have hback := Engine.reverts_of_discardSince hk (hu.retrieves _ hlive) hdiscard
      exact Engine.kempt_of_replaying h hback.kempt

/-- The engines that a step of the caller propagates are kempt. -/
theorem kempt_of_prompts (hu : Upkept past s saved) (hidle : s.engine.Idle) (h : s.Prompts e) :
    e.Kempt past := by
  cases h with
  | start => exact hu.kempt
  | decide v phase h => exact (Engine.spares_of_decideLit hu.kempt hidle h).kempt
  | learn hlevel hclause hfirst h => exact (upholds_of_pending hu hlevel hclause hfirst h).kempt

end CardSat
