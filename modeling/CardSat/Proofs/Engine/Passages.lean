import CardSat.Proofs.Engine.Adding
import CardSat.Proofs.Engine.Moments
import CardSat.Proofs.Engine.Rollback
import CardSat.Proofs.Engine.Rounds

set_option autoImplicit false

/-! # From one engine to another

`Engine.Leads e e'` says that steps lead from the engine `e` to the engine `e'`, whatever the past
is, and that no literal is left that was picked and not assigned. Every function of which the calls
are made leads from the engine that it is given to the one that it answers with; one lemma each. In
between, a search passes the states in which it picks (`Engine.Picking`).

Adding constraints takes steps of one kind only (`Engine.Steps`), in which nothing is picked and no
variable is added. There the stronger relation is shown, and `Steps.leads` turns it into the weaker
one. The stronger one is of use by itself: constraints leave the number of variables alone, however
they are added (`Steps.varCount_eq`).
-/

namespace CardSat

namespace Engine

open Moment (Path Next Sound)

/-- Steps lead from one engine to another one. -/
def Leads (e e' : Engine) : Prop :=
  ∀ r past, Sound r ⟨e, none, past⟩ → ∃ past', Path ⟨e, none, past⟩ ⟨e', none, past'⟩

variable {e e' e₁ e₂ : Engine} {b : Bool} {l : Lit} {lits : List Lit} {task : Task}

namespace Leads

/-- No step. -/
theorem refl (e : Engine) : e.Leads e := fun _ past _ => ⟨past, .refl⟩

/-- One passage after another. -/
theorem trans (h : e.Leads e₁) (h' : e₁.Leads e₂) : e.Leads e₂ := by
  intro r past hs
  obtain ⟨past₁, hp⟩ := h r past hs
  obtain ⟨past₂, hp'⟩ := h' r past₁ (Moment.sound_of_path hs hp)
  exact ⟨past₂, hp.trans hp'⟩

/-- A step that takes its past from the trail. -/
theorem of_step (h : e.Step e') : e.Leads e' := fun _ _ _ => ⟨_, .single (.step h)⟩

/-- What concerns neither the trail nor the decisions. -/
theorem of_other (ht : e'.trail = e.trail) (hd : e'.decisions = e.decisions) : e.Leads e' :=
  .of_step (.other ht hd)

end Leads

/-! ## Adding constraints -/

/-- A new variable is one step. -/
theorem leads_of_newVar {v : Var} {negated decision : Bool}
    (h : e.newVar negated decision = .ok (v, e')) : e.Leads e' :=
  fun _ _ _ => ⟨_, .single (.newVar h)⟩

/-- What is true of one step after another is true of the calls that take no other steps, whatever
state the engine is in. -/
theorem Steps.leads (h : e.Steps e') : e.Leads e' := by
  induction h with
  | refl => exact .refl e
  | tail _ h ih => exact ih.trans (.of_step h)

/-- Making literals false is a sequence of assignments. -/
theorem steps_of_refute : ∀ {lits : List Lit} {e : Engine},
    e.refute lits = .ok (b, e') → e.Steps e' := by
  intro lits
  induction lits with
  | nil =>
      intro e h
      simp only [refute, pure_eq_ok, Prod.mk.injEq] at h
      exact h.2 ▸ .refl
  | cons l rest ih =>
      intro e h
      simp only [refute, bind_eq_ok] at h
      obtain ⟨x, -, h⟩ := h
      cases x with
      | yes =>
          simp only [pure_eq_ok, Prod.mk.injEq] at h
          exact h.2 ▸ .refl
      | no => exact ih h
      | unset =>
          simp only [bind_eq_ok] at h
          obtain ⟨e₁, hassign, h⟩ := h
          exact .head (.assign hassign) (ih h)

/-- The test for an implied clause opens a level, makes the literals false, propagates and goes
back. -/
theorem steps_of_implies (h : e.implies lits = .ok (b, e')) : e.Steps e' := by
  simp only [implies, bind_eq_ok] at h
  obtain ⟨_, -, ⟨found, e₁⟩, hrefute, h⟩ := h
  have hrefuted : e.Steps e₁ := .head .openLevel (steps_of_refute hrefute)
  cases found with
  | true =>
      simp only [bind_eq_ok, pure_eq_ok, Prod.mk.injEq] at h
      obtain ⟨e₂, hcancel, -, rfl⟩ := h
      exact hrefuted.tail (.cancelUntil hcancel)
  | false =>
      simp only [bind_eq_ok, pure_eq_ok, Prod.mk.injEq] at h
      obtain ⟨⟨failed, e₂⟩, hprop, e₃, hcancel, -, rfl⟩ := h
      exact (hrefuted.tail (.propagate hprop)).tail (.cancelUntil hcancel)

/-- Propagating facts is one step or none. -/
theorem steps_of_propagateFacts (h : e.propagateFacts = .ok (b, e')) : e.Steps e' := by
  simp only [propagateFacts, bind_eq_ok, pure_eq_ok, Prod.mk.injEq] at h
  obtain ⟨⟨failed, e₁⟩, hprop, -, rfl⟩ := h
  exact .single (.propagate hprop)

/-- A fact is noted and assigned. -/
theorem steps_of_addFact (h : e.addFact l = .ok e') : e.Steps e' := by
  let e₁ : Engine := { e with database := e.database.addUnit l }
  have hassign : e₁.assign l none = .ok e' := h
  have hunit : e.Step e₁ := .other rfl rfl
  exact .head hunit (.single (.assign hassign))

/-- Several facts, one after another. -/
theorem steps_of_addFacts {lits : List Lit} (h : lits.foldlM (fun e l => addFact e l.neg) e =
    .ok e') : e.Steps e' :=
  foldlM_ok (fun _ e₁ => e.Steps e₁) (fun _ _ _ _ hl h => hl.trans (steps_of_addFact h)) .refl h

/-- A constraint is stored and watched. -/
theorem steps_of_watch {db : Database} {store : Store} {a : Handle}
    (h : { e with database := db, network := { e.network with store } }.watch a = .ok e') :
    e.Steps e' := by
  obtain ⟨c, index, -, -, rfl⟩ := watch_eq_ok h
  exact .single (.other rfl rfl)

/-- A clause is stored and put on watch. -/
theorem steps_of_storeClause (h : e.storeClause lits = .ok e') : e.Steps e' := by
  simp only [storeClause, bind_eq_ok] at h
  obtain ⟨⟨a, db, store⟩, -, h⟩ := h
  exact steps_of_watch h

/-- What is left of a clause is stored or becomes a fact. -/
theorem steps_of_addReduced (h : e.addReduced lits = .ok (b, e')) : e.Steps e' := by
  simp only [addReduced, bind_eq_ok] at h
  obtain ⟨left, -, sat, -, h⟩ := h
  split at h
  next => exact (Prod.mk.inj (pure_eq_ok.1 h)).2 ▸ .refl
  next =>
      split at h
      next => exact (Prod.mk.inj (pure_eq_ok.1 h)).2 ▸ .refl
      next =>
          obtain ⟨e₁, hfact, hprop⟩ := bind_eq_ok.1 h
          exact (steps_of_addFact hfact).trans (steps_of_propagateFacts hprop)
      next =>
          simp only [bind_eq_ok, pure_eq_ok, Prod.mk.injEq] at h
          obtain ⟨e₁, hstore, -, rfl⟩ := h
          exact steps_of_storeClause hstore

/-- A clause is tested first where the settings say so. -/
theorem steps_of_addClause (h : e.addClause lits = .ok (b, e')) : e.Steps e' := by
  simp only [addClause, bind_eq_ok] at h
  obtain ⟨_, -, h⟩ := h
  split at h
  · simp only [bind_eq_ok] at h
    obtain ⟨⟨found, e₁⟩, himplies, h⟩ := h
    cases found with
    | true =>
        simp only [pure_eq_ok, Prod.mk.injEq] at h
        exact h.2 ▸ steps_of_implies himplies
    | false => exact (steps_of_implies himplies).trans (steps_of_addReduced h)
  · exact steps_of_addReduced h

/-- An at-most constraint is stored, or its literals become facts. -/
theorem steps_of_addAtMost {bound : Nat} (h : e.addAtMost lits bound = .ok (b, e')) :
    e.Steps e' := by
  simp only [addAtMost, bind_eq_ok] at h
  obtain ⟨_, -, r, -, h⟩ := h
  split at h
  next => exact (Prod.mk.inj (pure_eq_ok.1 h)).2 ▸ .refl
  next =>
      split at h
      next => exact (Prod.mk.inj (pure_eq_ok.1 h)).2 ▸ .refl
      next =>
          split at h
          next =>
              obtain ⟨e₁, hfacts, hprop⟩ := bind_eq_ok.1 h
              rw [← Array.foldlM_toList] at hfacts
              exact (steps_of_addFacts hfacts).trans (steps_of_propagateFacts hprop)
          next =>
              simp only [bind_eq_ok, pure_eq_ok, Prod.mk.injEq] at h
              obtain ⟨⟨a, db, store⟩, -, e₁, hwatch, -, rfl⟩ := h
              exact steps_of_watch hwatch

/-- Preprocessing propagates and simplifies. -/
theorem leads_of_preprocess (h : e.preprocess = .ok (b, e')) : e.Leads e' := by
  simp only [preprocess, bind_eq_ok] at h
  obtain ⟨_, -, ⟨failed, e₁⟩, hprop, h⟩ := h
  cases failed with
  | none =>
      simp only [bind_eq_ok, pure_eq_ok, Prod.mk.injEq] at h
      obtain ⟨e₂, hsimplify, -, rfl⟩ := h
      exact (Leads.of_step (.propagate hprop)).trans (.of_step (.simplify hsimplify))
  | some a =>
      simp only [pure_eq_ok, Prod.mk.injEq] at h
      exact h.2 ▸ .of_step (.propagate hprop)

/-! ## Going back to a snapshot -/

/-- A replay assigns each fact and propagates. -/
theorem leads_of_replay : ∀ {facts : List Lit} {e : Engine},
    replay facts e = .ok (b, e') → e.Leads e' := by
  intro facts
  induction facts with
  | nil =>
      intro e h
      simp only [replay, pure_eq_ok, Prod.mk.injEq] at h
      exact h.2 ▸ .refl e
  | cons l rest ih =>
      intro e h
      cases replay_cons_eq_ok.1 h with
      | refused htry => exact .of_step (.tryAssign htry)
      | failed htry hprop =>
          exact (Leads.of_step (.tryAssign htry)).trans (.of_step (.propagate hprop))
      | next htry hprop h =>
          exact ((Leads.of_step (.tryAssign htry)).trans (.of_step (.propagate hprop))).trans (ih h)

/-- Going back discards and replays. -/
theorem leads_of_rollback {snapshot : Snapshot} (h : e.rollback snapshot = .ok (b, e')) :
    e.Leads e' := by
  simp only [rollback, bind_eq_ok] at h
  obtain ⟨e₁, hdiscard, h⟩ := h
  have hd : e.Leads e₁ := fun _ _ _ => ⟨_, .single (.reload hdiscard)⟩
  split at h
  · exact hd.trans (leads_of_replay h)
  · simp only [pure_eq_ok, Prod.mk.injEq] at h
    exact h.2 ▸ hd

/-! ## Learning -/

/-- A learnt clause is stored, and its first literal is assigned. -/
theorem leads_of_learn {lits : Array Lit} (h : e.learn l lits = .ok e') : e.Leads e' := by
  rw [learn] at h
  split at h
  · exact (steps_of_addFact h).leads
  · simp only [bind_eq_ok] at h
    obtain ⟨⟨a, db, store⟩, -, e₁, hwatch, hassign⟩ := h
    exact Steps.leads ((steps_of_watch hwatch).tail (.assign hassign))

/-- Counting a conflict that was learnt from. -/
theorem leads_of_counted (e : Engine) : e.Leads e.decay.countTowardsLimit := by
  obtain ⟨limit, journal, heq⟩ := exists_countTowardsLimit e.decay
  rw [heq]
  exact (Leads.of_step .decay).trans (.of_other rfl rfl)

/-- Learning analyses, goes back, stores and decays. -/
theorem leads_of_learnFrom {failed : Handle} (h : e.learnFrom failed = .ok (b, e')) :
    e.Leads e' := by
  cases learnsFrom_of_learnFrom h with
  | unsatisfiable hanalyze => exact .of_step (.analyze hanalyze)
  | unit hanalyze hcancel hlearn =>
      exact (((Leads.of_step (.analyze hanalyze)).trans (.of_step (.cancelUntil hcancel))).trans
        (leads_of_learn hlearn)).trans (leads_of_counted _)
  | clause hanalyze hcancel _ hlearn =>
      exact (((Leads.of_step (.analyze hanalyze)).trans (.of_step (.cancelUntil hcancel))).trans
        (leads_of_learn hlearn)).trans (leads_of_counted _)

/-! ## Searching -/

/-- Each assumption that is true gets a level. -/
theorem leads_of_chooseAssumption {as : Array Lit} : ∀ {n : Nat} {e : Engine} {c : Option Choosing},
    chooseAssumption as n e = .ok (c, e') → e.Leads e' := by
  intro n
  induction n with
  | zero =>
      intro e c h
      simp only [chooseAssumption, pure_eq_ok, Prod.mk.injEq] at h
      exact h.2 ▸ .refl e
  | succ n ih =>
      intro e c h
      rw [chooseAssumption] at h
      split at h
      next =>
          simp only [pure_eq_ok, Prod.mk.injEq] at h
          exact h.2 ▸ .refl e
      next p _ =>
          simp only [bind_eq_ok] at h
          obtain ⟨x, -, h⟩ := h
          cases x with
          | yes => exact (Leads.of_step .openLevel).trans (ih h)
          | no =>
              simp only [bind_eq_ok, pure_eq_ok, Prod.mk.injEq] at h
              obtain ⟨⟨found, analysis⟩, -, -, rfl⟩ := h
              exact .of_other rfl rfl
          | unset =>
              simp only [pure_eq_ok, Prod.mk.injEq] at h
              exact h.2 ▸ .refl e

/-- A choice after which nothing is decided. -/
theorem leads_of_choose {as : Array Lit} {c : Choosing} (h : e.choose as = .ok (c, e'))
    (hc : ∀ l, c ≠ .decide l) : e.Leads e' := by
  cases chooses_of_choose h with
  | assumed hassumed => exact leads_of_chooseAssumption hassumed
  | complete hassumed hpick =>
      exact (leads_of_chooseAssumption hassumed).trans fun _ _ _ => ⟨_, .single (.pick hpick)⟩
  | @decide _ _ l => exact absurd rfl (hc l)

/-- A choice and the decision that follows. -/
theorem leads_of_decision {as : Array Lit} (h : e.choose as = .ok (.decide l, e₁))
    (hd : e₁.decideLit l = .ok e') : e.Leads e' := by
  cases chooses_of_choose h with
  | assumed hassumed => exact (leads_of_chooseAssumption hassumed).trans (.of_step (.decideLit hd))
  | decide hassumed hpick =>
      exact (leads_of_chooseAssumption hassumed).trans fun _ _ _ =>
        ⟨_, .tail (.single (.pick hpick)) (.decide hd)⟩

/-- What a round does before it chooses. -/
theorem leads_of_turn (hpropagate : e.propagate = .ok (none, e₁)) (hsimplify : e₁.simplify = .ok e₂)
    (hreduce : e₂.reduce = .ok e') : e.Leads e' :=
  ((Leads.of_step (.propagate hpropagate)).trans (.of_step (.simplify hsimplify))).trans
    (.of_step (.reduce hreduce))

/-- A search passes from its first state to every round. -/
theorem leads_of_round (h : Round task e e') : e.Leads e' := by
  induction h with
  | first => exact .refl e
  | decide _ hprop hsimp hred hchoose hdecide ih =>
      exact (ih.trans (leads_of_turn hprop hsimp hred)).trans (leads_of_decision hchoose hdecide)
  | learn _ hprop hlearn ih =>
      have hp := ih.trans (.of_step (.propagate hprop))
      refine hp.trans (Leads.trans ?_ (leads_of_learnFrom hlearn))
      exact .of_other rfl rfl
  | restart _ hprop hcancel ih =>
      have hp := ih.trans (.of_step (.propagate hprop))
      refine (hp.trans (.of_step (.cancelUntil hcancel))).trans ?_
      exact .of_other rfl rfl

/-- A search passes from its last round to its answer. -/
theorem leads_of_close {a : Answer} (h : Close task e a e') : e.Leads e' := by
  cases h with
  | interrupted hprop hcancel =>
      exact (Leads.of_step (.propagate hprop)).trans (.of_step (.cancelUntil hcancel))
  | failed hprop hsimp hred hchoose =>
      exact (leads_of_turn hprop hsimp hred).trans (leads_of_choose hchoose (by simp))
  | complete hprop hsimp hred hchoose =>
      exact (leads_of_turn hprop hsimp hred).trans (leads_of_choose hchoose (by simp))
  | refuted hprop hlearn =>
      refine (Leads.of_step (.propagate hprop)).trans (Leads.trans ?_ (leads_of_learnFrom hlearn))
      exact .of_other rfl rfl
  | canceled hprop => exact (Leads.of_step (.propagate hprop)).trans (.of_other rfl rfl)

/-- The bookkeeping at the start takes no step. -/
theorem leads_of_opened (e : Engine) : e.Leads e.opened := .of_other rfl rfl

/-- A search leads from the engine that it is given to the one that it answers with. -/
theorem leads_of_search {σ : Type} {st st' : σ} {handler : Handler (StateM σ)}
    {restart : RestartStrategy} {budget : Budget} {as : List Lit} {a : Answer}
    (h : Returns (e.search restart budget handler as) st (a, e') st') : e.Leads e' := by
  obtain ⟨e₁, e₂, e₃, hr, hclose, hcancel, rfl⟩ := close_of_search h
  have hend : e.Leads e₃ := (((leads_of_opened e).trans (leads_of_round hr)).trans
    (leads_of_close hclose)).trans (.of_step (.cancelUntil hcancel))
  exact hend.trans (.of_other rfl rfl)

/-- The states in which a search that begins in `e₀` picks a literal: no assumption is left to be
decided. -/
inductive Picking (task : Task) (e₀ : Engine) : Engine → Prop
  | pick {e e₁ e₂ e₃ e₄ : Engine} (hr : Round task e₀ e)
      (hpropagate : e.propagate = .ok (none, e₁)) (hsimplify : e₁.simplify = .ok e₂)
      (hreduce : e₂.reduce = .ok e₃)
      (hassumed : chooseAssumption task.assumptions (task.assumptions.size - e₃.trail.level) e₃ =
        .ok (none, e₄)) : Picking task e₀ e₄

/-- A search passes every state in which it picks. -/
theorem leads_of_picking (h : Picking task e e') : e.Leads e' := by
  obtain ⟨hr, hprop, hsimp, hred, hassumed⟩ := h
  exact ((leads_of_round hr).trans (leads_of_turn hprop hsimp hred)).trans
    (leads_of_chooseAssumption hassumed)

end Engine

end CardSat
