import CardSat.Proofs.Directing
import CardSat.Proofs.Lessons

set_option autoImplicit false

/-! # Recovering from a failed decision

A decision that fails leaves a clause to be learnt. A caller who takes the levels back from the top
one by one (`Descent`) comes to exactly one level at which it may be learnt. There it awaits its
first literal, and learning it makes this literal true (`Offers`). If that fails as well, then there
is no world left, or another clause is to be learnt further down. Since the levels go down, this
comes to an end (`Recovers`, `recovers_of_decide`).
-/

namespace CardSat

open Lit (x0 x1 x2)

variable {rules : Rules} {s s' s₀ s₁ s₂ : Solver} {L : Ledger} {R : World → Prop} {good : Prop}
  {b : Bool} {e₀ : Engine} {n : Nat}

/-! ## What a failed propagation leaves -/

/-- Drawing a lesson takes back nothing: without a world left, no level is open. -/
theorem extends_of_keepLesson {failed : Handle} (hs : e₀.Steered R good s.engine)
    (hconf : s.engine.network.Conflict failed) (h : s.keepLesson failed = .ok s') :
    s.engine.trail.Extends s'.engine.trail := by
  obtain ⟨lesson, e, hanalyze, hkept⟩ := Solver.keepsLesson_of_keepLesson h
  obtain ⟨hs₁, hright, htrail⟩ := Engine.steered_of_analyze hs hconf hanalyze
  rw [← htrail] at hright ⊢
  cases hkept with
  | unsatisfiable hcancel =>
      have hground : e.trail.level = 0 := hright
      rw [Engine.trail_of_cancelUntil hcancel, Trail.rewind_of_le hs₁.valid (Nat.le_of_eq hground)]
      exact .refl _
  | unit l => exact .refl _
  | clause level lits => exact .refl _

theorem extends_of_propagateStep (hs : e₀.Steered R good s.engine)
    (h : s.propagateStep = .ok (b, s')) : s.engine.trail.Extends s'.engine.trail := by
  rcases Solver.propagateStep_eq_ok.1 h with ⟨-, e, hprop, rfl⟩ | ⟨-, a, e, hprop, hkeep⟩
  · exact (Engine.propagated_of_propagate hs.reaches.fit False.elim hprop).longer
  · have hlonger := (Engine.propagated_of_propagate hs.reaches.fit False.elim hprop).longer
    obtain ⟨-, -, -, hconf, hs₁⟩ := Engine.steered_of_propagate (hs.mono False.elim) hprop
    exact hlonger.trans
      (extends_of_keepLesson (s := { s with engine := e }) (hs₁ False.elim) (hconf a rfl).1 hkeep)

namespace Solver

/-- A clause is to be learnt at some level below the present one. -/
def OwesBelow (s : Solver) (k : Nat) (lits : Array Lit) : Prop :=
  s.pending.clause = some lits ∧ s.pending.level = some k ∧ k < s.engine.trail.level

/-- A solver that has failed. There is no world left, or a clause is to be learnt. -/
def Failed (s : Solver) : Prop :=
  s.ok = false ∧ s.engine.trail.level = 0 ∨ s.ok = true ∧ ∃ k lits, s.OwesBelow k lits

end Solver

theorem failed_of_propagateStep (hs : e₀.Steered R good s.engine) (hok : s.ok = true)
    (h : s.propagateStep = .ok (false, s')) : s'.Failed := by
  rcases Solver.propagateStep_eq_ok.1 h with ⟨hno, -⟩ | ⟨-, a, e, hprop, hkeep⟩
  · cases hno
  · obtain ⟨lesson, e', hanalyze, hkept⟩ := Solver.keepsLesson_of_keepLesson hkeep
    obtain ⟨-, -, -, hconf, hs₁⟩ := Engine.steered_of_propagate (hs.mono False.elim) hprop
    obtain ⟨-, hright, htrail⟩ :=
      Engine.steered_of_analyze (hs₁ False.elim) (hconf a rfl).1 hanalyze
    rw [← htrail] at hright
    cases hkept with
    | unsatisfiable hcancel =>
        refine Or.inl ⟨rfl, ?_⟩
        rw [Engine.trail_of_cancelUntil hcancel, Trail.level_rewind, Nat.zero_min]
    | unit l => exact Or.inr ⟨hok, 0, #[l], rfl, rfl, hright.1⟩
    | clause level lits => exact Or.inr ⟨hok, level, lits, rfl, rfl, hright.1.below⟩

/-! ## Every level is opened by a decision -/

/-- What is learnt becomes true. -/
theorem Engine.exists_assigned_of_learn {e e' : Engine} {l : Lit} {lits : Array Lit}
    (h : e.learn l lits = .ok e') : ∃ r, e.trail.Assigned l r e'.trail := by
  rw [learn] at h
  split at h
  next =>
      simp only [assign, bind_eq_ok, pure_eq_ok] at h
      obtain ⟨t, hassign, rfl⟩ := h
      exact ⟨none, Trail.assigned_of_assign hassign⟩
  next =>
      simp only [watch, assign, bind_eq_ok, pure_eq_ok] at h
      obtain ⟨⟨a, _, _⟩, -, _, ⟨_, -, _, -, rfl⟩, t, hassign, rfl⟩ := h
      exact ⟨some a, Trail.assigned_of_assign hassign⟩

theorem Solver.trail_learnt (s : Solver) (e : Engine) : (s.learnt e).engine.trail = e.trail := by
  obtain ⟨_, _, hcount⟩ := Engine.exists_countTowardsLimit e.decay
  rw [learnt, hcount]
  rfl

theorem opened_of_steer (hd : Directed good s₀ s) (hok : s.ok = true) (ho : s.Owed)
    (hopened : s.engine.trail.Opened) (h : Steer s b s') : s'.engine.trail.Opened := by
  have hs := hd.steered (hd.ok hok)
  have hidle := hd.idle hok
  cases h with
  | start h =>
      obtain ⟨-, rfl⟩ := Prod.mk.inj (Except.ok.inj ((Solver.start_of_idle hidle).symm.trans h))
      exact hopened
  | decide v phase h =>
      simp only [Solver.decide, bind_eq_ok] at h
      obtain ⟨e, hdecide, h⟩ := h
      obtain ⟨-, ha, -⟩ := Engine.reaches_of_decideLit hs.reaches.fit hidle hdecide
      exact (hopened.decide hs.valid ha).extends (extends_of_propagateStep
        (s := { s.setUnread true with engine := e })
        (Engine.steered_of_decideLit hs hidle hdecide).1 h)
  | undo v h =>
      obtain ⟨k, e, hcancel, rfl⟩ := Solver.undo_eq_ok h
      show e.trail.Opened
      rw [Engine.trail_of_cancelUntil hcancel]
      exact hopened.rewind hs.valid k
  | read known => exact hopened
  | learn hforces h =>
      obtain ⟨lits, l, e, howes, hlearn, hcases, h⟩ := Solver.exists_learnt hforces ho hs.valid h
      have hs₁ := Solver.steered_of_learnt hs howes hcases hlearn
      obtain ⟨r, ha⟩ := Engine.exists_assigned_of_learn hlearn
      refine Trail.Opened.extends ?_ (extends_of_propagateStep hs₁ h)
      rw [Solver.trail_learnt]
      exact hopened.extends (ha.extends hs.valid)

theorem opened_of_session (h : Session rules s L) : s.engine.trail.Opened := by
  induction h with
  | new h => exact Trail.opened_of_ground (valid_of_new h : Valid rules _ _).ground
  | call hs hground h _ =>
      obtain ⟨s₀, hv, hd, -⟩ := directed_of_session hs
      exact Trail.opened_of_ground (valid_of_call (hd.valid hv hground) h).ground
  | load hs hsaved h _ =>
      obtain ⟨s₀, hv, hd, -⟩ := directed_of_session hs
      have hloadable := hv.loadable.reaches (hd.reaches hv.fit)
      exact Trail.opened_of_ground (valid_of_load hloadable hsaved h).ground
  | steer hs hok h ih =>
      obtain ⟨s₀, -, hd, ho⟩ := directed_of_session hs
      exact opened_of_steer hd hok ho ih h

/-! ## Going back level by level -/

/-- Levels taken back from the top, one by one; the number counts them. -/
inductive Descent (s : Solver) : Nat → Solver → Prop
  | refl : Descent s 0 s
  | undo {n : Nat} {s₁ s₂ : Solver} (hd : Descent s n s₁) (v : Var)
      (htop : s₁.level v = .ok (some s₁.engine.trail.level)) (h : s₁.undo v = .ok s₂) :
      Descent s (n + 1) s₂

namespace Descent

theorem backtrack (h : Descent s n s') : Backtrack s s' := by
  induction h with
  | refl => exact .refl
  | undo _ v _ h ih => exact ih.undo v h

theorem level (h : Descent s n s') : s'.engine.trail.level + n = s.engine.trail.level := by
  induction h with
  | refl => rfl
  | @undo n s₁ s₂ _ v htop h ih =>
      rw [Solver.undo, htop, ok_bind] at h
      cases hlevel : s₁.engine.trail.level with
      | zero =>
          rw [hlevel] at h
          exact absurd h throw_ne_ok.1
      | succ k =>
          simp only [hlevel, bind_eq_ok, pure_eq_ok] at h
          obtain ⟨e, hcancel, rfl⟩ := h
          have htrail : e.trail.level = min k s₁.engine.trail.level := by
            rw [Engine.trail_of_cancelUntil hcancel, Trail.level_rewind]
          show e.trail.level + (n + 1) = s.engine.trail.level
          omega

end Descent

/-- The level of a variable that has a value. -/
theorem Solver.level_of_mem {l : Lit} (hv : s.engine.trail.Valid) (hl : l ∈ s.engine.trail) :
    s.level l.var = .ok (some (s.engine.trail.levelOf l.var)) := by
  have hcell := Trail.cell_eq_ok.2 ⟨hv.lt_varCount hl, rfl⟩
  have hset : (s.engine.trail.cellOf l.var).value.isUnset = false := by
    rw [Bool.eq_false_iff, ne_eq, Trail.isUnset_iff, (hv.truth_yes l).2 hl]
    simp
  rw [Solver.level, Trail.assigned?, hcell, ok_bind, hset]
  rfl

/-- Going back is never refused. -/
theorem exists_descent (h : Session rules s L) (hok : s.ok = true) (hripe : s.Ripe)
    (hn : n ≤ s.engine.trail.level) : ∃ s', Descent s n s' := by
  induction n with
  | zero => exact ⟨s, .refl⟩
  | succ n ih =>
      obtain ⟨s₁, hdesc⟩ := ih (Nat.le_of_succ_le hn)
      have hlevel := hdesc.level
      obtain ⟨hs₁, hok₁, -⟩ := ripe_of_backtrack h hok hripe hdesc.backtrack
      obtain ⟨s₀, -, hd, -⟩ := directed_of_session hs₁
      have hs := hd.steered (hd.ok hok₁)
      -- the decision of the top level is taken back
      obtain ⟨d, hdec, htop⟩ := opened_of_session hs₁ s₁.engine.trail.level (by omega) (Nat.le_refl _)
      have hlev := Solver.level_of_mem hs.valid hdec.mem
      rw [htop] at hlev
      obtain ⟨k, hk⟩ : ∃ k, s₁.engine.trail.level = k + 1 := ⟨s₁.engine.trail.level - 1, by omega⟩
      obtain ⟨e, hcancel⟩ :=
        Engine.succeeds_cancelUntil hs.reaches.fit (orderly_of_session hs₁) k
      refine ⟨{ s₁.setUnread false with engine := e }, hdesc.undo d.var hlev ?_⟩
      rw [Solver.undo, hlev, ok_bind, hk]
      exact bind_eq_ok.2 ⟨e, hcancel, rfl⟩

/-! ## Learning the clause -/

/-- A state after a clause was learnt. The first literal is true, and it follows from the open
decisions in the worlds of interest. If propagating it has shown that the solver is not `ok`, then
there is no such world. -/
structure Offers (R : World → Prop) (lits : Array Lit) (b : Bool) (s : Solver) : Prop where
  asserted : ∃ l, lits[0]? = some l ∧ l ∈ s.engine.trail ∧
    ∀ w, R w → (∀ d ∈ s.engine.trail.decisions, d.holds w = true) → l.holds w = true
  refuted : b = false → s.ok = false → s.engine.trail.level = 0 ∧ ∀ w, ¬ R w

/-- Directing a search changes nothing about the problem. -/
theorem problem_of_steer (h : Session rules s L) (hok : s.ok = true) (hsteer : Steer s b s')
    {w : World} (hw : s.engine.Problem w) : s'.engine.Problem w := by
  obtain ⟨s₀, -, hd, ho⟩ := directed_of_session h
  have h₀ := hd.ok hok
  have hd' := (directed_of_steer hd hok ho hsteer).1
  exact (hd'.steered h₀).reaches.fit.problem ((hd.steered h₀).reaches.evolves.problem w hw)

theorem problem_of_backtrack (h : Session rules s L) (hok : s.ok = true) (hripe : s.Ripe)
    (hb : Backtrack s s') {w : World} (hw : s.engine.Problem w) : s'.engine.Problem w := by
  induction hb with
  | refl => exact hw
  | undo hb v hundo ih =>
      obtain ⟨hs₁, hok₁, -⟩ := ripe_of_backtrack h hok hripe hb
      exact problem_of_steer hs₁ hok₁ (.undo v hundo) ih
  | read hb known ih =>
      obtain ⟨hs₁, hok₁, -⟩ := ripe_of_backtrack h hok hripe hb
      exact problem_of_steer hs₁ hok₁ (.read known) ih

theorem offers_of_assertLearnt {lits : Array Lit} (h : Session rules s L) (hok : s.ok = true)
    (hR : ∀ w, R w → s.engine.Problem w) (hclause : s.pending.clause = some lits)
    (hforces : s.forces = true) (hlearn : s.assertLearnt = .ok (b, s')) :
    Offers R lits b s' ∧ s'.engine.trail.level = s.engine.trail.level ∧
      (b = false → s'.Failed) := by
  obtain ⟨s₀, -, hd, ho⟩ := directed_of_session h
  have h₀ := hd.ok hok
  have hs := hd.steered h₀
  have hR₀ : ∀ w, R w → s₀.engine.Problem w := fun w hw => hs.reaches.evolves.problem w (hR w hw)
  have hd' := (directed_of_steer hd hok ho (.learn hforces hlearn)).1
  have hf' := (hd'.steered h₀).reaches.fit.anti hR₀
  -- what is learnt is assigned, and propagating keeps it
  have howes := ho lits hclause
  simp only [Solver.assertLearnt, hclause, bind_eq_ok, require_eq_ok, fetch_eq_ok] at hlearn
  obtain ⟨_, hlevel, l, hfirst, e, hassert, hprop⟩ := hlearn
  obtain ⟨l', hfirst', -, hcases⟩ :=
    Solver.forcing_of_forces hforces howes hclause hlevel hs.valid
  obtain rfl := Option.some.inj (hfirst'.symm.trans hfirst)
  have hs₁ := Solver.steered_of_learnt hs howes (hcases.imp_right And.right) hassert
  obtain ⟨r, ha⟩ := Engine.exists_assigned_of_learn hassert
  have hx := extends_of_propagateStep hs₁ hprop
  rw [Solver.trail_learnt] at hx
  have hmem : l' ∈ s'.engine.trail := hx.mem (ha.mem_iff.2 (Or.inr rfl))
  have hfailed : b = false → s'.Failed := fun hb =>
    failed_of_propagateStep (s := s.learnt e) hs₁ hok (hb ▸ hprop)
  refine ⟨⟨⟨l', hfirst, hmem, fun w hw hdec => ?_⟩, fun hb hno => ⟨?_, fun w hw => ?_⟩⟩,
    hx.level_eq.trans ha.level_eq, hfailed⟩
  · exact hf'.holds_of_decisions hw (fun d hd _ => hdec d hd) l' hmem (Nat.le_refl _)
  · rcases hfailed hb with ⟨-, hground⟩ | ⟨hok', -⟩
    · exact hground
    · exact absurd hok' (by simp [hno])
  · exact hd'.refuted h₀ hno w (hR₀ w hw)

/-! ## The protocol -/

/-- From a call that has failed a caller recovers by going back. Every level can be taken back, each
step lowers the level by one, and after exactly one number of steps the clause may be learnt: at the
level that is recorded with it, which lies below. Learning the clause there is not refused, and if
it fails once more, then the caller recovers from this, unless there is no world left.

That the level goes down and is reached is part of the predicate. Without `hdown` and `hone` it
would say nothing about a solver whose steps back take nothing back. -/
inductive Recovers (R : World → Prop) : Solver → Prop
  | intro {s : Solver} {k : Nat} {lits : Array Lit} (howes : s.OwesBelow k lits)
      (hback : ∀ n ≤ s.engine.trail.level, ∃ s', Descent s n s')
      (hdown : ∀ n s', Descent s n s' → s'.engine.trail.level + n = s.engine.trail.level)
      (hlevel : ∀ n s', Descent s n s' →
        (s'.atAssertionLevel = true ↔ s'.engine.trail.level = k))
      (hone : ∃! n, ∃ s', Descent s n s' ∧ s'.atAssertionLevel = true)
      (hlearn : ∀ n s', Descent s n s' → s'.atAssertionLevel = true →
        s'.engine.trail.Awaits lits.toList ∧
          ∃ b s₁, s'.assertLearnt = .ok (b, s₁) ∧ Offers R lits b s₁)
      (hagain : ∀ n s' s₁, Descent s n s' → s'.assertLearnt = .ok (false, s₁) → s₁.ok = true →
        Recovers R s₁) : Recovers R s

theorem recovers_of_ripe {k : Nat} {lits : Array Lit} (h : Session rules s L) (hok : s.ok = true)
    (hripe : s.Ripe) (hR : ∀ w, R w → s.engine.Problem w) (howes : s.OwesBelow k lits) :
    Recovers R s := by
  -- the level of the next failure is the one at which the clause was learnt
  induction hm : s.engine.trail.level using Nat.strong_induction_on generalizing s k lits with
  | _ m ih =>
  obtain ⟨hclause, hpending, hbelow⟩ := howes
  have hat : ∀ n s', Descent s n s' →
      (s'.atAssertionLevel = true ↔ s'.engine.trail.level = k) := by
    intro n s' hdesc
    rw [Solver.atAssertionLevel, hdesc.backtrack.pending_level, hpending, beq_iff_eq,
      Option.some.injEq, eq_comm]
  have hready : ∀ n s', Descent s n s' → s'.atAssertionLevel = true →
      Session rules s' L ∧ s'.ok = true ∧ s'.forces = true ∧ s'.pending.clause = some lits ∧
        ∀ w, R w → s'.engine.Problem w := by
    intro n s' hdesc hlevel
    obtain ⟨hs', hok', hripe'⟩ := ripe_of_backtrack h hok hripe hdesc.backtrack
    obtain ⟨s₀, -, hd, -⟩ := directed_of_session hs'
    refine ⟨hs', hok', hripe'.forces (hd.steered (hd.ok hok')).valid hlevel, ?_, fun w hw => ?_⟩
    · rw [hdesc.backtrack.pending_clause, hclause]
    · exact problem_of_backtrack h hok hripe hdesc.backtrack (hR w hw)
  refine .intro ⟨hclause, hpending, hbelow⟩ (fun n hn => exists_descent h hok hripe hn)
    (fun n s' => Descent.level) hat ?_ ?_ ?_
  · -- going back counts the levels down, and so only one number of steps leads to the level `k`
    obtain ⟨s', hdesc⟩ := exists_descent h hok hripe (Nat.sub_le s.engine.trail.level k)
    have hdown := hdesc.level
    refine ⟨s.engine.trail.level - k, ⟨s', hdesc, (hat _ s' hdesc).2 (by omega)⟩, ?_⟩
    rintro n ⟨s'', hdesc', hlevel⟩
    have hdown' := hdesc'.level
    have hk := (hat n s'' hdesc').1 hlevel
    omega
  · intro n s' hdesc hlevel
    obtain ⟨hs', hok', hforces, hclause', hR'⟩ := hready n s' hdesc hlevel
    obtain ⟨l, rest, hlits, hl, hrest, -⟩ := Solver.forces_eq_true hforces hclause'
    obtain ⟨b, s₁, hlearn⟩ := (assertLearnt_of_session hs' hok').1 hlevel hforces
    exact ⟨⟨l, rest, hlits, hl, hrest⟩, b, s₁, hlearn,
      (offers_of_assertLearnt hs' hok' hR' hclause' hforces hlearn).1⟩
  · intro n s' s₁ hdesc hlearn hok₁
    have hlevel : s'.atAssertionLevel = true := (Solver.assertLearnt_eq_ok.1 hlearn).1
    obtain ⟨hs', hok', hforces, hclause', hR'⟩ := hready n s' hdesc hlevel
    have hsteer : Steer s' false s₁ := .learn hforces hlearn
    obtain ⟨s₀, -, hd, ho⟩ := directed_of_session hs'
    obtain ⟨-, hsame, hfailed⟩ := offers_of_assertLearnt hs' hok' hR' hclause' hforces hlearn
    rcases hfailed rfl with ⟨hno, -⟩ | ⟨-, k₁, lits₁, howes₁⟩
    · exact absurd hok₁ (by simp [hno])
    · have hk := (hat n s' hdesc).1 hlevel
      exact ih s₁.engine.trail.level (by omega) (hs'.steer hok' hsteer) hok₁
        (Solver.ripe_of_steer hd hok' ho hsteer)
        (fun w hw => problem_of_steer hs' hok' hsteer (hR' w hw)) howes₁ rfl

/-- From a decision that has failed a caller recovers. What is learnt follows from the stored
constraints and the open decisions, and so from the demands and these decisions. -/
theorem recovers_of_decide {v : Var} {phase : Bool} (h : Session rules s L) (hok : s.ok = true)
    (hdecide : s.decide v phase = .ok (false, s₁)) :
    s₁.ok = true ∧ s₁.engine.trail.level = s.engine.trail.level + 1 ∧
      Recovers s.engine.Problem s₁ ∧
      (rules.plain = true → Recovers (fun w => w.Meets L.added) s₁) := by
  obtain ⟨s₀, hv, hd, ho⟩ := directed_of_session h
  have h₀ := hd.ok hok
  have hs := hd.steered h₀
  have hsteer : Steer s false s₁ := .decide v phase hdecide
  have hripe := Solver.ripe_of_steer hd hok ho hsteer
  have hproblem : ∀ w, s.engine.Problem w → s₁.engine.Problem w := fun w =>
    problem_of_steer h hok hsteer
  -- the decision opens a level, and so the conflict is not at the ground level
  have hstep := hdecide
  simp only [Solver.decide, bind_eq_ok] at hstep
  obtain ⟨e, hopen, hprop⟩ := hstep
  obtain ⟨-, ha, -⟩ := Engine.reaches_of_decideLit hs.reaches.fit (hd.idle hok) hopen
  have hs₁ := (Engine.steered_of_decideLit hs (hd.idle hok) hopen).1
  have hlevel : s₁.engine.trail.level = s.engine.trail.level + 1 := calc
    s₁.engine.trail.level = e.trail.level :=
      (extends_of_propagateStep (s := { s.setUnread true with engine := e }) hs₁ hprop).level_eq
    _ = s.engine.trail.level + 1 := ha.level_eq.trans (Trail.level_openLevel _)
  rcases failed_of_propagateStep (s := { s.setUnread true with engine := e }) hs₁ hok hprop with
    ⟨-, hground⟩ | ⟨hok₁, k, lits, howes⟩
  · omega
  · refine ⟨hok₁, hlevel, ?_, fun hp => ?_⟩
    · exact recovers_of_ripe (h.steer hok hsteer) hok₁ hripe hproblem howes
    · refine recovers_of_ripe (h.steer hok hsteer) hok₁ hripe (fun w hw => hproblem w ?_) howes
      exact hs.reaches.fit.problem (hv.exact hp h₀ w hw)

/-- The second of two decisions contradicts the clauses. -/
theorem recovers_of_failed_decision :
    ∃ s s₁, Session { plain := true } s
        { added := [.clause [x0.neg, x1.neg, x2.neg], .clause [x0.neg, x1.neg, x2]] } ∧
      s.ok = true ∧ s.decide x1.var true = .ok (false, s₁) ∧
      Recovers (fun w => w.Meets
        [.clause [x0.neg, x1.neg, x2.neg], .clause [x0.neg, x1.neg, x2]]) s₁ := by
  obtain ⟨s, s₁, -, -, -, hs, hok, hdecide, -⟩ := exists_failed_decision
  exact ⟨s, s₁, hs, hok, hdecide, (recovers_of_decide hs hok hdecide).2.2.2 rfl⟩

end CardSat
