import CardSat.Proofs.Engine.Returning
import CardSat.Proofs.Ledger.Orderly
import CardSat.Proofs.Ledger.Session

set_option autoImplicit false

/-! # Learning what is pending

In every session the engine is in order (`orderly_of_session`), and every level begins with its
decision. So a propagation returns, together with the lesson of the conflict that it may end with
(`returns_of_propagateStep`), and the pending clause can be learnt wherever it forces its first
literal (`returns_of_assertLearnt`).

A caller who only goes back after a call has failed (`Backtrack`) is at such a place as soon as the
level of the lesson is reached (`forces_of_backtrack`).

## Ripening

When a conflict is analysed, all literals of the clause are false, the first of them on the level of
the conflict and the others below it (`Ripens`). Going back takes values away and gives none, so a
literal is without a value as soon as its level is gone, and false as long as it is there. At the
level of the second literal the first one has lost its value and the others have not. This is all
that is needed, and it does not matter in how many steps the caller goes back.
-/

namespace CardSat

variable {rules : Rules} {s s' s₀ : Solver} {L L' : Ledger} {R : World → Prop} {good : Prop}
  {b : Bool} {e₀ : Engine}

/-! ## Steps return -/

/-- The lesson of a conflict can be drawn. -/
theorem returns_of_keepLesson {failed : Handle} (hs : e₀.Steered R good s.engine)
    (ho : s.engine.Orderly) (hconf : s.engine.network.Conflict failed) :
    ∃ s', s.keepLesson failed = .ok s' ∧ s'.engine.Orderly := by
  have hf := hs.reaches.fit
  obtain ⟨⟨lesson, e⟩, hanalyze⟩ := Engine.succeeds_analyze hf ho hs.led hconf
  have ho₁ := Engine.orderly_of_analyze hf ho hconf hanalyze
  have hf₁ := (Engine.reaches_of_analyze hf hconf hanalyze).1.fit
  rw [Solver.keepLesson, hanalyze, ok_bind]
  cases lesson with
  | unsatisfiable =>
      obtain ⟨e', hcancel⟩ := Engine.succeeds_cancelUntil hf₁ ho₁ 0
      exact ⟨_, bind_eq_ok.2 ⟨e', hcancel, rfl⟩, Engine.orderly_of_cancelUntil hf₁ ho₁ hcancel⟩
  | unit l => exact ⟨_, rfl, ho₁⟩
  | clause level lits => exact ⟨_, rfl, ho₁⟩

/-- Propagating returns, and where it fails its lesson is drawn. -/
theorem returns_of_propagateStep (hs : e₀.Steered R good s.engine) (ho : s.engine.Orderly) :
    ∃ b s', s.propagateStep = .ok (b, s') ∧ s'.engine.Orderly := by
  obtain ⟨failed, e, hprop, ho₁⟩ := Engine.returns_of_propagate hs.reaches.fit ho
  rw [Solver.propagateStep, hprop, ok_bind]
  cases failed with
  | none => exact ⟨true, _, rfl, ho₁⟩
  | some a =>
      obtain ⟨-, -, -, hconf, hs₁⟩ :=
        Engine.steered_of_propagate (hs.mono False.elim) hprop
      obtain ⟨s', hkeep, ho'⟩ := returns_of_keepLesson (s := { s with engine := e })
        (hs₁ False.elim) ho₁ (hconf a rfl).1
      exact ⟨false, s', bind_eq_ok.2 ⟨s', hkeep, rfl⟩, ho'⟩

/-- A propagation and its lesson leave an engine in order. -/
theorem orderly_of_propagateStep (hs : e₀.Steered R good s.engine) (ho : s.engine.Orderly)
    (h : s.propagateStep = .ok (b, s')) : s'.engine.Orderly := by
  obtain ⟨b', s'', h', ho'⟩ := returns_of_propagateStep hs ho
  obtain ⟨rfl, rfl⟩ := Prod.mk.inj (Except.ok.inj (h'.symm.trans h))
  exact ho'

/-- What is pending can be learnt where it forces its first literal. -/
theorem returns_of_assertLearnt (hd : Directed good s₀ s) (hok : s.ok = true) (ho : s.Owed)
    (hord : s.engine.Orderly) (hlevel : s.atAssertionLevel = true) (hforces : s.forces = true) :
    ∃ b s', s.assertLearnt = .ok (b, s') ∧ s'.engine.Orderly := by
  have hs := hd.steered (hd.ok hok)
  have hf := hs.reaches.fit
  obtain ⟨lits, hclause⟩ : ∃ lits, s.pending.clause = some lits := by
    cases hclause : s.pending.clause with
    | none =>
        rw [Solver.forces, hclause] at hforces
        cases hforces
    | some lits => exact ⟨lits, rfl⟩
  have howes := ho lits hclause
  -- a fact is learnt at the ground level, a longer clause above it
  obtain ⟨l, hfirst, hunset, hcases⟩ :=
    Solver.forcing_of_forces hforces howes hclause hlevel hs.valid
  obtain ⟨e, hlearn⟩ : Succeeds (s.engine.learn l lits) := by
    rcases hcases with ⟨rfl, -⟩ | ⟨-, hforcing⟩
    · rw [Engine.learn_singleton]
      exact Engine.succeeds_assign (howes.known l (by simp)) hunset
    · exact Engine.succeeds_learn hf hord hforcing hunset
  have hord₁ : e.Orderly := Engine.orderly_of_learn hf hord (fun hne _ => by
    have hforcing := (hcases.resolve_left fun h => hne (by rw [h.1]; rfl)).2
    exact hforcing.wellFormed hs.valid (by simp)) hlearn
  obtain ⟨b, s', hprop, ho'⟩ := returns_of_propagateStep
    (Solver.steered_of_learnt hs howes (hcases.imp_right And.right) hlearn) hord₁.decay
  refine ⟨b, s', ?_, ho'⟩
  rw [Solver.assertLearnt, hclause]
  simp only [fetch_eq_ok.2 hfirst, hlearn, ok_bind]
  exact bind_eq_ok.2 ⟨(), require_eq_ok.2 hlevel, hprop⟩

/-! ## Solvers in order -/

/-- Every step that directs the search leaves an engine in order. -/
theorem orderly_of_steer (hd : Directed good s₀ s) (hok : s.ok = true) (ho : s.Owed)
    (hord : s.engine.Orderly) (h : Steer s b s') : s'.engine.Orderly := by
  have hs := hd.steered (hd.ok hok)
  have hf := hs.reaches.fit
  cases h with
  | start h =>
      obtain ⟨rfl, rfl⟩ :=
        Prod.mk.inj (Except.ok.inj ((Solver.start_of_idle (hd.idle hok)).symm.trans h))
      exact hord
  | decide v phase h =>
      simp only [Solver.decide, bind_eq_ok] at h
      obtain ⟨e, hdecide, h⟩ := h
      exact orderly_of_propagateStep (s := { s.setUnread true with engine := e })
        (Engine.steered_of_decideLit hs (hd.idle hok) hdecide).1
        (Engine.orderly_of_decideLit hord hdecide) h
  | undo v h =>
      obtain ⟨k, e, hcancel, rfl⟩ := Solver.undo_eq_ok h
      exact Engine.orderly_of_cancelUntil hf hord hcancel
  | read known => exact hord
  | learn hforces h =>
      have hlevel : s.atAssertionLevel = true := (Solver.assertLearnt_eq_ok.1 h).1
      obtain ⟨b', s'', h', ho'⟩ := returns_of_assertLearnt hd hok ho hord hlevel hforces
      obtain ⟨rfl, rfl⟩ := Prod.mk.inj (Except.ok.inj (h'.symm.trans h))
      exact ho'

/-- The engine is in order throughout every session. -/
theorem orderly_of_session (h : Session rules s L) : s.engine.Orderly := by
  induction h with
  | new h => exact orderly_of_new h
  | call hs hground h ih =>
      obtain ⟨s₀, hv, hd, -⟩ := directed_of_session hs
      exact orderly_of_call (hd.valid hv hground) ih h
  | @load s₁ _ L₁ snapshot added younger older hs hsaved h ih =>
      obtain ⟨s₀, hv, hd, -⟩ := directed_of_session hs
      have hlive : (snapshot, added) ∈ L₁.saved :=
        hsaved ▸ List.mem_append_right younger List.mem_cons_self
      exact orderly_of_load (hv.loadable.reaches (hd.reaches hv.fit)) hlive ih h
  | steer hs hok h ih =>
      obtain ⟨s₀, -, hd, ho⟩ := directed_of_session hs
      exact orderly_of_steer hd hok ho ih h

/-! ## Going back after a failure -/

/-- Going back, and reading. -/
inductive Backtrack (s : Solver) : Solver → Prop
  | refl : Backtrack s s
  | undo {s₁ s₂ : Solver} (hb : Backtrack s s₁) (v : Var) (h : s₁.undo v = .ok s₂) :
      Backtrack s s₂
  | read {s₁ : Solver} (hb : Backtrack s s₁) (known : Var → Bool) :
      Backtrack s (s₁.newlyImplied known).2

/-- Going back leaves the level of the lesson as it is. -/
theorem Backtrack.pending_level (hb : Backtrack s s') : s'.pending.level = s.pending.level := by
  induction hb with
  | refl => rfl
  | undo _ v h ih =>
      obtain ⟨k, e, -, rfl⟩ := Solver.undo_eq_ok h
      exact ih
  | read _ _ ih => exact ih

/-- Going back leaves the lesson as it is. -/
theorem Backtrack.pending_clause (hb : Backtrack s s') : s'.pending.clause = s.pending.clause := by
  induction hb with
  | refl => rfl
  | undo _ v h ih =>
      obtain ⟨k, e, -, rfl⟩ := Solver.undo_eq_ok h
      exact ih
  | read _ _ ih => exact ih

/-- A clause that forces its first literal once the trail has gone back to the level `k`. -/
structure Ripens (t : Trail) (k : Nat) (lits : List Lit) : Prop where
  head : ∃ l, lits.head? = some l ∧ k < t.levelOf l.var
  tail : k ≤ t.level → ∀ m ∈ lits.tail, m.neg ∈ t ∧ t.levelOf m.var ≤ k
  second : ∀ m, lits.tail.head? = some m → t.levelOf m.var = k

namespace Ripens

variable {t : Trail} {k : Nat} {lits : List Lit}

/-- A clause stays ripe while levels are taken back. -/
theorem rewind (h : Ripens t k lits) (hv : t.Valid) (c : Nat) :
    Ripens (t.rewind c).2 k lits where
  head := by simpa using h.head
  tail hk m hm := by
    rw [Trail.level_rewind] at hk
    obtain ⟨hneg, hle⟩ := h.tail (by omega) m hm
    rw [Trail.levelOf_rewind]
    exact ⟨(Trail.mem_rewind hv).2 ⟨hneg, Nat.le_trans hle (by omega)⟩, hle⟩
  second := by simpa using h.second

/-- What a conflict teaches forces its first literal further down. -/
theorem of_right {lesson : Lesson} (hright : lesson.Right t R)
    (hlesson : lesson = .clause k lits.toArray ∨ ∃ l, lesson = .unit l ∧ k = 0 ∧ lits = [l]) :
    Ripens t k lits := by
  rcases hlesson with rfl | ⟨l, rfl, rfl, rfl⟩
  · obtain ⟨ha, -⟩ := hright
    obtain ⟨l, hl, -, hlevel⟩ := ha.first
    obtain ⟨m, hm, hsecond⟩ := ha.second
    refine ⟨⟨l, hl, hlevel ▸ ha.below⟩, fun _ m hm => ?_, fun m' hm' => ?_⟩
    · exact ⟨(ha.tail m hm).1, (ha.tail m hm).2.2⟩
    · rw [← List.drop_one, List.head?_drop] at hm'
      rw [← Option.some.inj (hm.symm.trans hm'), hsecond]
  · obtain ⟨hpos, -, hlevel, -⟩ := hright
    exact ⟨⟨l, rfl, hlevel ▸ hpos⟩, by simp, by simp⟩

end Ripens

namespace Solver

/-- A solver whose last call has failed, and has left a clause that ripens. -/
def Ripe (s : Solver) : Prop :=
  ∀ k, s.pending.level = some k → s.ok = true ∧ ∃ lits, s.pending.clause = some lits ∧
    Ripens s.engine.trail k lits.toList

theorem Ripe.forces (h : s.Ripe) (hv : s.engine.trail.Valid) (hlevel : s.atAssertionLevel = true) :
    s.forces = true := by
  rw [atAssertionLevel, beq_iff_eq] at hlevel
  obtain ⟨-, lits, hclause, hripe⟩ := h _ hlevel
  obtain ⟨l, hl, habove⟩ := hripe.head
  obtain ⟨rest, hrest⟩ := List.head?_eq_some_iff.1 hl
  have hunset : s.engine.trail.truth l = .unset := by
    exact (hv.truth_unset l).2 ⟨fun hm => Nat.not_le.2 habove (hv.levelOf_le hm),
      fun hm => Nat.not_le.2 habove (hv.levelOf_le (l := l.neg) hm)⟩
  have htail := hripe.tail (Nat.le_refl _)
  have hsecond := hripe.second
  rw [hrest, List.tail_cons] at htail hsecond
  rw [Solver.forces, hclause, Option.map_some, hrest]
  simp only [Bool.and_eq_true, beq_iff_eq, List.all_eq_true]
  refine ⟨⟨hunset, fun m hm => (hv.truth_no m).2 (htail m hm).1⟩, ?_⟩
  cases hhead : rest.head? with
  | none => rfl
  | some m => exact beq_iff_eq.2 (hsecond m hhead)

/-- The lesson of a conflict is ripe. -/
theorem ripe_of_keepLesson {failed : Handle} (hs : e₀.Steered R good s.engine)
    (hok : s.ok = true) (hconf : s.engine.network.Conflict failed)
    (h : s.keepLesson failed = .ok s') : s'.Ripe := by
  obtain ⟨lesson, e, hanalyze, hkept⟩ := keepsLesson_of_keepLesson h
  obtain ⟨-, hright, htrail⟩ := Engine.steered_of_analyze hs hconf hanalyze
  rw [← htrail] at hright
  intro k hk
  cases hkept with
  | unsatisfiable => cases hk
  | unit l =>
      obtain rfl := Option.some.inj hk
      exact ⟨hok, _, rfl, .of_right hright (Or.inr ⟨l, rfl, rfl, rfl⟩)⟩
  | clause level lits =>
      obtain rfl := Option.some.inj hk
      exact ⟨hok, lits, rfl, .of_right hright (Or.inl rfl)⟩

theorem ripe_of_propagateStep (hs : e₀.Steered R good s.engine) (hok : s.ok = true)
    (h : s.propagateStep = .ok (false, s')) : s'.Ripe := by
  rcases propagateStep_eq_ok.1 h with ⟨hno, -⟩ | ⟨-, a, e, hprop, hkeep⟩
  · cases hno
  · obtain ⟨-, -, -, hconf, hs₁⟩ := Engine.steered_of_propagate (hs.mono False.elim) hprop
    exact ripe_of_keepLesson (s := { s with engine := e }) (hs₁ False.elim) hok (hconf a rfl).1
      hkeep

/-- A call that fails leaves a clause that ripens. -/
theorem ripe_of_steer (hd : Directed good s₀ s) (hok : s.ok = true) (ho : s.Owed)
    (h : Steer s false s') : s'.Ripe := by
  have hs := hd.steered (hd.ok hok)
  cases h with
  | start h =>
      cases (start_of_idle (hd.idle hok)).symm.trans h
  | decide v phase h =>
      simp only [decide, bind_eq_ok] at h
      obtain ⟨e, hdecide, h⟩ := h
      exact ripe_of_propagateStep (s := { s.setUnread true with engine := e })
        (Engine.steered_of_decideLit hs (hd.idle hok) hdecide).1 hok h
  | learn hforces h =>
      obtain ⟨lits, l, e, howes, hlearn, hcases, h⟩ := exists_learnt hforces ho hs.valid h
      exact ripe_of_propagateStep (s := s.learnt e) (steered_of_learnt hs howes hcases hlearn) hok h

end Solver

theorem ripe_of_backtrack (h : Session rules s L) (hok : s.ok = true) (hripe : s.Ripe)
    (hb : Backtrack s s') : Session rules s' L ∧ s'.ok = true ∧ s'.Ripe := by
  induction hb with
  | refl => exact ⟨h, hok, hripe⟩
  | undo _ v hundo ih =>
      obtain ⟨hs₁, hok₁, hripe₁⟩ := ih
      obtain ⟨s₀, -, hd, -⟩ := directed_of_session hs₁
      have hs₂ := hs₁.steer hok₁ (.undo v hundo)
      obtain ⟨c, e, hcancel, rfl⟩ := Solver.undo_eq_ok hundo
      refine ⟨hs₂, hok₁, fun k hk => ?_⟩
      obtain ⟨-, lits, hclause, hr⟩ := hripe₁ k hk
      refine ⟨hok₁, lits, hclause, ?_⟩
      rw [Engine.trail_of_cancelUntil hcancel]
      exact hr.rewind (hd.steered (hd.ok hok₁)).valid c
  | read _ known ih =>
      obtain ⟨hs₁, hok₁, hripe₁⟩ := ih
      exact ⟨hs₁.steer hok₁ (.read known), hok₁, hripe₁⟩

/-- After a call has failed, a caller who only goes back finds the pending clause to force its
first literal at the level of the lesson. -/
theorem forces_of_backtrack {s₁ s₂ : Solver} (h : Session rules s L) (hok : s.ok = true)
    (hfailed : Steer s false s₁) (hb : Backtrack s₁ s₂) (hlevel : s₂.atAssertionLevel = true) :
    Session rules s₂ L ∧ s₂.ok = true ∧ s₂.forces = true := by
  obtain ⟨s₀, -, hd, ho⟩ := directed_of_session h
  have hripe := Solver.ripe_of_steer hd hok ho hfailed
  -- the level of a lesson is noted only where the solver stays `ok`
  have hk : s₁.pending.level = some s₂.engine.trail.level := by
    rw [← hb.pending_level]
    exact beq_iff_eq.1 hlevel
  obtain ⟨hs₂, hok₂, hripe₂⟩ := ripe_of_backtrack (h.steer hok hfailed) (hripe _ hk).1 hripe hb
  obtain ⟨_, -, hd₂, -⟩ := directed_of_session hs₂
  exact ⟨hs₂, hok₂, hripe₂.forces (hd₂.steered (hd₂.ok hok₂)).valid hlevel⟩

end CardSat
