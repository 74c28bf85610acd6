import CardSat.Proofs.Ledger.Asserting
import CardSat.Proofs.Ledger.Demands

set_option autoImplicit false

/-! # What a caller who directs the search can count on

The promises of a solver over all sessions:

* what is implied under the open decisions follows from the demands and these decisions,
* the pending clause can be learnt at its level; for this it is enough to go back after a call has
  failed, and to do nothing else,
* an answer that is sought while levels are open counts these for the levels of the first
  assumptions. A model makes the later assumptions true; a core may contain open decisions. A model
  meets the demands unless a violated constraint was left standing.

All of them need that a clause is learnt only where it forces its first literal. At other places
with the same number of open levels it may be that the clause does not force it, or that the trail
has another value for it. Then a literal without grounds stands on the trail from there on, or the
call is refused.
-/

namespace CardSat

open Lit (x0 x1 x2)

variable {s s' : Solver} {L : Ledger} {rules : Rules} {σ : Type} {st st' : σ} {budget : Budget}
  {assumptions : List Lit} {handler : Handler (StateM σ)}

/-- A solver that is not `ok` has no world left. -/
theorem refuted_of_session (h : Session rules s L) (hp : rules.plain = true) (hno : s.ok = false)
    (w : World) : ¬ w.Meets L.added := by
  obtain ⟨s₀, hv, hd, -⟩ := directed_of_session h
  intro hw
  cases h₀ : s₀.ok with
  | true => exact hd.refuted h₀ hno w (hv.exact hp h₀ w hw)
  | false => exact hv.refuted hp h₀ w hw

/-- The engine is fit to speak about the worlds that meet the demands. -/
theorem fit_of_session (h : Session rules s L) (hp : rules.plain = true) :
    s.engine.Fit fun w => w.Meets L.added := by
  obtain ⟨s₀, hv, hd, -⟩ := directed_of_session h
  cases hok : s.ok with
  | true => exact (hd.steered (hd.ok hok)).reaches.fit.anti (hv.exact hp (hd.ok hok))
  | false => exact (hd.reaches hv.fit).fit.anti (refuted_of_session h hp hok)

/-! ## What is implied -/

/-- A solver in which two decisions contradict the clauses: the second one fails, and is taken back.
What is learnt then forces the opposite of it. -/
theorem exists_failed_decision :
    ∃ s₁ s₂ s₃ b s₄, Session { plain := true } s₁
        { added := [.clause [x0.neg, x1.neg, x2.neg], .clause [x0.neg, x1.neg, x2]] } ∧
      s₁.ok = true ∧ s₁.decide x1.var true = .ok (false, s₂) ∧ s₂.ok = true ∧
      s₂.undo x1.var = .ok s₃ ∧ s₃.ok = true ∧ s₃.atAssertionLevel = true ∧ s₃.forces = true ∧
      s₃.assertLearnt = .ok (b, s₄) ∧ x1.neg ∈ s₄.engine.trail ∧
      s₄.engine.trail.decisions = [x0] := by
  have hpass : ((Solver.ofDemands 3 [.clause [x0.neg, x1.neg, x2],
      .clause [x0.neg, x1.neg, x2.neg]] >>= fun s => s.decide x0.var true >>= fun x =>
      x.2.decide x1.var true >>= fun y => y.2.undo x1.var >>= fun s₃ =>
      s₃.assertLearnt >>= fun z => return (s, x.2, y, s₃, z.2)).toOption.any fun x =>
        x.1.ok && x.2.1.ok && !x.2.2.1.1 && x.2.2.1.2.ok && x.2.2.2.1.ok &&
          x.2.2.2.1.atAssertionLevel && x.2.2.2.1.forces &&
          x.2.2.2.2.engine.trail.lits.toList.contains x1.neg &&
          x.2.2.2.2.engine.trail.decisions == [x0]) = true := by
    simp (disch := decide) only [Solver.ofDemands, Solver.addDemands, Solver.demand,
      Solver.addClause, Engine.addClause, Engine.addReduced, Lit.sortDistinct_of_pairwise]
    decide +kernel
  obtain ⟨s, x, hrun, h, hx⟩ := exists_run_of_test hpass (by decide) (by decide)
  simp only [bind_eq_ok, pure_eq_ok] at h
  obtain ⟨⟨b₁, s₁⟩, h₁, ⟨b₂, s₂⟩, h₂, s₃, h₃, ⟨b₄, s₄⟩, h₄, rfl⟩ := h
  simp only [Bool.and_eq_true, beq_iff_eq, List.contains_iff_mem, Bool.not_eq_true'] at hx
  obtain ⟨⟨⟨⟨⟨⟨⟨⟨hok, hok₁⟩, rfl⟩, hok₂⟩, hok₃⟩, hlevel⟩, hforces⟩, hmem⟩, hdecisions⟩ := hx
  exact ⟨s₁, s₂, s₃, b₄, s₄,
    (session_of_run (hrun _)).steer hok (.decide x0.var true h₁), hok₁, h₂, hok₂, h₃, hok₃, hlevel,
    hforces, h₄, hmem, hdecisions⟩

/-- Every literal of the trail follows from the demands and the open decisions of its level and of
those below. -/
theorem implied_of_session (h : Session { plain := true } s L) {l : Lit} (hl : l ∈ s.engine.trail)
    {w : World} (hw : w.Meets L.added)
    (hdecisions : ∀ d ∈ s.engine.trail.decisions,
      s.engine.trail.levelOf d.var ≤ s.engine.trail.levelOf l.var → d.holds w = true) :
    l.holds w = true :=
  (fit_of_session h rfl).holds_of_decisions hw hdecisions l hl (Nat.le_refl _)

/-- After the second of two decisions has failed, the first one forces the clause that is learnt. -/
theorem implied_by_learnt_clause :
    ∃ s, Session { plain := true } s
        { added := [.clause [x0.neg, x1.neg, x2.neg], .clause [x0.neg, x1.neg, x2]] } ∧
      x1.neg ∈ s.engine.trail ∧ s.engine.trail.decisions = [x0] ∧
      ∀ w : World, w.Meets [.clause [x0.neg, x1.neg, x2.neg], .clause [x0.neg, x1.neg, x2]] →
        x0.holds w = true → x1.neg.holds w = true := by
  obtain ⟨s₁, s₂, s₃, b, s₄, hs₁, hok₁, hdecide, hok₂, hundo, hok₃, -, hforces, hlearn, hmem,
    hdecisions⟩ := exists_failed_decision
  have hs₃ := (hs₁.steer hok₁ (.decide x1.var true hdecide)).steer hok₂ (.undo x1.var hundo)
  have hs₄ := hs₃.steer hok₃ (.learn hforces hlearn)
  refine ⟨s₄, hs₄, hmem, hdecisions, fun w hw hx0 => implied_of_session hs₄ hmem hw fun d hd _ => ?_⟩
  rw [hdecisions, List.mem_singleton] at hd
  exact hd ▸ hx0

/-- What is read is implied by the open decisions. -/
theorem implied_of_newlyImplied (h : Session { plain := true } s L) {known : Var → Bool} {l : Lit}
    (hl : l ∈ (s.newlyImplied known).1) {w : World} (hw : w.Meets L.added)
    (hdecisions : ∀ d ∈ s.engine.trail.decisions, d.holds w = true) : l.holds w = true := by
  have hlevel : l ∈ s.engine.trail.currentLevel := by
    simp only [Solver.newlyImplied] at hl
    split at hl
    next =>
        have hl := List.mem_reverse.1 (List.mem_filter.1 hl).1
        split at hl
        next => exact hl
        next => exact List.mem_of_mem_drop hl
    next => cases hl
  exact (fit_of_session h rfl).holds_of_decisions hw (fun d hd _ => hdecisions d hd) l
    (List.mem_of_mem_drop hlevel) (Nat.le_refl _)

/-! ## Learning -/

/-- Learning at the level of the lesson is not refused where the pending clause forces its first
literal, and so not to a caller who has only gone back since a call has failed. -/
theorem assertLearnt_of_session (h : Session rules s L) (hok : s.ok = true) :
    (s.atAssertionLevel = true → s.forces = true → ∃ b s', s.assertLearnt = .ok (b, s')) ∧
      ∀ s₁ s₂, Steer s false s₁ → Backtrack s₁ s₂ → s₂.atAssertionLevel = true →
        ∃ b s', s₂.assertLearnt = .ok (b, s') := by
  have hlearn : ∀ {s : Solver}, Session rules s L → s.ok = true → s.atAssertionLevel = true →
      s.forces = true → ∃ b s', s.assertLearnt = .ok (b, s') := by
    intro s h hok hlevel hforces
    obtain ⟨_, -, hd, ho⟩ := directed_of_session h
    obtain ⟨b, s', hreturns, -⟩ :=
      returns_of_assertLearnt hd hok ho (orderly_of_session h) hlevel hforces
    exact ⟨b, s', hreturns⟩
  refine ⟨hlearn h hok, fun s₁ s₂ hfailed hback hlevel => ?_⟩
  obtain ⟨hs₂, hok₂, hforces⟩ := forces_of_backtrack h hok hfailed hback hlevel
  exact hlearn hs₂ hok₂ hlevel hforces

/-- The second of two decisions fails, and is taken back. -/
theorem assertLearnt_after_undo :
    ∃ s s₁ s₂ b s', Session { plain := true } s
        { added := [.clause [x0.neg, x1.neg, x2.neg], .clause [x0.neg, x1.neg, x2]] } ∧
      s.decide x1.var true = .ok (false, s₁) ∧ s₁.undo x1.var = .ok s₂ ∧
      s₂.atAssertionLevel = true ∧ s₂.assertLearnt = .ok (b, s') := by
  obtain ⟨s, s₁, s₂, -, -, hs, hok, hdecide, -, hundo, -, hlevel, -⟩ := exists_failed_decision
  obtain ⟨b, s', hreturns⟩ := (assertLearnt_of_session hs hok).2 s₁ s₂
    (.decide x1.var true hdecide) (.undo .refl x1.var hundo) hlevel
  exact ⟨s, s₁, s₂, b, s', hs, hdecide, hundo, hlevel, hreturns⟩

/-! ## Answers -/

/-- At the ground level nothing is overlooked, and neither is it after a call that answers with
true. -/
theorem not_overlooks_of_session (h : Session rules s L) (hu : rules.uncanceled = true)
    (hok : s.ok = true) :
    (s.engine.trail.level = 0 → ¬ s.engine.Overlooks) ∧
      (¬ s.engine.Overlooks → ∀ s', Steer s true s' → ¬ s'.engine.Overlooks) := by
  obtain ⟨s₀, hv, hd, ho⟩ := directed_of_session h
  have hg := hv.uncanceled hu
  have hs := hd.steered (hd.ok hok)
  refine ⟨fun hground => (hd.watching_iff hok hg).1 ?_, fun hno s' hsteer => ?_⟩
  · exact (hs.attentive ⟨hok, hg⟩).watching_of_ground hs.valid hground
  · obtain ⟨hok', hw⟩ := watching_of_steer hd hok ho ((hd.watching_iff hok hg).2 hno) hsteer
    exact ((directed_of_steer hd hok ho hsteer).1.watching_iff (hok'.trans hok) hg).1 hw

/-- What an answer is worth that is sought while levels are open. -/
theorem answer_of_session {a : Answer}
    (h : Session { decisionVars := true, plain := true, uncanceled := true } s L)
    (hsolve : Returns (s.solve budget assumptions handler) st (a, s') st') :
    (∀ m, a = .sat m →
      (∀ i l, assumptions[i]? = some l → s.engine.trail.level ≤ i → m.makesTrue l = true) ∧
      (¬ s.engine.Overlooks → ∀ w, m.Agrees w → w.Meets L.added)) ∧
    ∀ core, a = .unsat core →
      IsCore (fun w => w.Meets L.added) (assumptions ++ s.engine.trail.decisions) core := by
  obtain ⟨s₀, hv, hd, -⟩ := directed_of_session h
  rcases returns_solve hsolve with ⟨hno, rfl, -⟩ | ⟨hok, ⟨st₁, st₂, hsearch⟩, -⟩
  · refine ⟨fun m ha => ?_, fun core hcore => ?_⟩
    · cases ha
    · obtain rfl := Answer.unsat.inj hcore
      exact ⟨by simp, fun w hw => absurd hw (refuted_of_session h rfl hno w)⟩
  · have h₀ := hd.ok hok
    have hs := hd.steered h₀
    have hr := hs.reaches
    have hwatch : ¬ s.engine.Overlooks → s.engine.Watching :=
      (hd.watching_iff hok (hv.uncanceled rfl)).2
    obtain ⟨-, -, -, hc⟩ := Engine.concluded_of_search (fit_of_session h rfl) hwatch hsearch
    refine ⟨?_, ?_⟩
    -- the assumptions hold above the levels that were open, and the demands hold if no conflict was
    -- overlooked
    · rintro m rfl
      obtain ⟨-, hassumed, hcomplete⟩ := hc
      refine ⟨hassumed, fun hno w hw => hv.sound h₀ w (hr.evolves.problem w ?_)⟩
      refine (hcomplete fun v hlt => ?_).2 hno (hr.placed (hv.resting h₀).placed) w hw
      rw [hr.decides]
      exact hv.decides rfl v (hr.varCount ▸ hlt)
    · rintro core rfl
      exact hc.1

/-- One open decision stands for the first assumption, whatever this is. -/
theorem answer_above_decision :
    ∃ s m s', Session { decisionVars := true, plain := true, uncanceled := true } s
        { added := [.clause [x0, x1]] } ∧
      s.engine.trail.decisions = [x0.neg] ∧
      Returns (s.solve {} [x0, x2] (Handler.none : Handler (StateM Unit))) () (.sat m, s') () ∧
      m.makesTrue x2 = true ∧ ∀ w, m.Agrees w → w.Meets [.clause [x0, x1]] := by
  have hpass : ((Solver.ofDemands 3 [.clause [x0, x1]] >>= fun s =>
      s.decide x0.var false >>= fun x => x.2.attempt [x0, x2] Handler.none () >>= fun y =>
      return (s, x, y.1)).toOption.any fun x =>
        x.1.ok && x.2.1.1 && x.1.engine.trail.level == 0 && x.2.1.2.engine.trail.level == 1 &&
          x.2.1.2.engine.trail.decisions == [x0.neg] && x.2.2.model?.isSome) = true := by
    simp (disch := decide) only [Solver.ofDemands, Solver.addDemands, Solver.demand,
      Solver.addClause, Engine.addClause, Engine.addReduced, Lit.sortDistinct_of_pairwise]
    decide +kernel
  obtain ⟨s, x, hrun, h, hx⟩ := exists_run_of_test hpass (by decide) (by decide)
  simp only [bind_eq_ok, pure_eq_ok] at h
  obtain ⟨⟨b, s₁⟩, h₁, ⟨a, s₂⟩, h₂, rfl⟩ := h
  simp only [Bool.and_eq_true, beq_iff_eq] at hx
  obtain ⟨⟨⟨⟨⟨hok, rfl⟩, hground⟩, hlevel⟩, hdecisions⟩, hsat⟩ := hx
  obtain ⟨m, rfl⟩ := Answer.exists_eq_sat hsat
  obtain ⟨st', hreturns⟩ := returns_of_attempt h₂
  have hs := session_of_run (hrun { decisionVars := true, plain := true, uncanceled := true })
  have hsteer : Steer s true s₁ := .decide x0.var false h₁
  have hs₁ := hs.steer hok hsteer
  obtain ⟨halert, hstays⟩ := not_overlooks_of_session hs rfl hok
  obtain ⟨hassumed, hmeets⟩ := (answer_of_session hs₁ hreturns).1 m rfl
  refine ⟨s₁, m, s₂, hs₁, hdecisions, hreturns, hassumed 1 x2 rfl ?_,
    hmeets (hstays (halert hground) s₁ hsteer)⟩
  exact Nat.le_of_eq hlevel

end CardSat
