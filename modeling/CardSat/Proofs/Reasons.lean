import CardSat.Proofs.Engine.Underway
import CardSat.Proofs.Occasions

set_option autoImplicit false

/-! # Reasons are stored and explain their literals

The reason of a literal is never freed while the literal is true, and it accounts for the literal:
what it was forced by came before it (`Engine.Reasoned`). A literal above the ground level without a
reason begins its level. Both hold between the calls of a run without canceled searches and whenever
a propagation ends (`reasons_of_run`); only on the level that is opened to try whether a clause
follows from the others (`Engine.Trial`) several literals have no reason.

So nothing that is looked up through a reason is missing (`Engine.Traceable`), and learning from a
conflict is not refused.

## What could go wrong

A sweep frees constraints, and a reason that is freed would be looked up in vain. It is kept from
that in two ways: giving up learnt clauses spares those that are a reason, and the other sweeps are
made at the ground level, where reasons are not looked up and are cleared with the constraint. A
constraint that is strengthened keeps its first two literals, so a reason still explains its first
literal.
-/

namespace CardSat

/-- The constraint `c` forced `m` by the literals `before` it. Either `m` is the first literal of a
clause whose other literals are false and came before it, or its complement belongs to an at-most
constraint of which as many literals are true as it allows, all of them since before `m`, and the
others are false. -/
inductive Constraint.AccountsFor (c : Constraint) (t : Trail) (before : List Lit) (m : Lit) : Prop
  | clause (hkind : c.isAtMost = false) (hhead : c.lits[0]? = some m)
      (hrest : ∀ a ∈ c.lits.toList.tail, t.truth a = .no ∧ a.neg ∈ before)
  | atMost {k : Nat} (hkind : c.kind = .atMost k) (hmem : m.neg ∈ c.lits.toList)
      (hcount : (c.lits.toList.countP fun l => t.truth l = .yes) = k)
      (htrue : ∀ l ∈ c.lits.toList, t.truth l = .yes → l ∈ before)
      (hfalse : ∀ l ∈ c.lits.toList, t.truth l = .yes ∨ t.truth l = .no)

/-- What explains a literal accounts for it: no other literals of an at-most constraint have become
true since. -/
theorem Constraint.Explains.accountsFor {c : Constraint} {t : Trail} {i : Nat} {m : Lit}
    (he : c.Explains t (t.lits.toList.take i) m) (hv : t.Valid) :
    c.AccountsFor t (t.lits.toList.take i) m := by
  have hbefore : ∀ {l}, l ∈ t.lits.toList.take i → l ∈ t := List.mem_of_mem_take
  cases hat : c.isAtMost with
  | false =>
      obtain ⟨hhead, hrest⟩ := he.clause hat
      refine .clause hat ?_ fun a ha => ⟨(hv.truth_no a).2 (hbefore (hrest a ha)), hrest a ha⟩
      rw [← Array.getElem?_toList, ← List.head?_eq_getElem?, hhead]
  | true =>
      obtain ⟨k, hk⟩ := Constraint.isAtMost_eq_true.1 hat
      obtain ⟨hmem, hcount, hall⟩ := he.atMost k hk
      have htrue : ∀ l ∈ c.lits.toList, t.truth l = .yes ↔ l ∈ t.lits.toList.take i := by
        refine fun l hl => ⟨fun hyes => (hall l hl).resolve_right fun hno => ?_, fun hb =>
          (hv.truth_yes l).2 (hbefore hb)⟩
        exact hv.neg_not_mem ((hv.truth_yes l).1 hyes) hno.1
      refine .atMost hk hmem ?_ (fun l hl => (htrue l hl).1) fun l hl => ?_
      · rw [← hcount]
        exact List.countP_congr fun l hl => by simpa using htrue l hl
      · exact (hall l hl).imp (htrue l hl).2 fun hno => (hv.truth_no l).2 hno.1

namespace Engine

variable {e e' : Engine} {R : World → Prop} {failed : Option Handle}

/-- The reason of every true literal is stored and accounts for it. -/
def Reasoned (e : Engine) : Prop :=
  ∀ m, e.trail.truth m = .yes → ∃ i, e.trail.lits[i]? = some m ∧
    ∀ h, e.trail.reasonOf m.var = some h →
      ∃ c, e.store.get? h = some c ∧ c.AccountsFor e.trail (e.trail.lits.toList.take i) m

theorem Fit.reasoned (hf : e.Fit R) : e.Reasoned := by
  intro m hm
  obtain ⟨i, hi⟩ := List.mem_iff_getElem?.1 ((hf.sane.trail.truth_yes m).1 hm)
  refine ⟨i, by rw [← Array.getElem?_toList, hi], fun h hreason => ?_⟩
  obtain ⟨c, hc, he⟩ := hf.sane.reasons i m h hi hreason
  exact ⟨c, hc, he.accountsFor hf.sane.trail⟩

/-- A level that was opened at the ground level to try whether a clause follows from the others: the
literals of the clause were made false there. -/
def Trial (e : Engine) : Prop :=
  ∃ (lits : List Lit) (e₀ : Engine), e₀.trail.level = 0 ∧ refute lits { e₀ with
    network := { e₀.network with trail := e₀.trail.openLevel } } = .ok (false, e)

/-- Nothing that is looked up where a propagation has ended is missing: the reason of a variable,
what explains a conflict and, without one, what thinning out the constraints and tracing a false
assumption look at. -/
structure Traceable (failed : Option Handle) (e : Engine) : Prop where
  reasonLits : ∀ v : Var, v.index < e.trail.varCount → Succeeds (e.reasonLits v)
  analyze : ∀ h, failed = some h → Succeeds (e.analyze h)
  simplify : failed = none → Succeeds e.simplify
  reduce : failed = none → ∀ e₁, e.simplify = .ok e₁ → Succeeds e₁.reduce
  assumptions : failed = none → ∀ e₁ e₂, e.simplify = .ok e₁ → e₁.reduce = .ok e₂ →
    ∀ (as : Array Lit) (n : Nat), (∀ p ∈ as.toList, p.var.index < e.trail.varCount) →
      Succeeds (chooseAssumption as n e₂)

/-- The reason of a variable is stored, or it has none. -/
theorem succeeds_reasonLits (hf : e.Fit R) {v : Var} (hv : v.index < e.trail.varCount) :
    Succeeds (e.reasonLits v) := by
  have hcell := Trail.cell_eq_ok.2 ⟨hv, rfl⟩
  simp only [reasonLits, Trail.assigned?, hcell, ok_bind]
  split
  next hunset => exact succeeds_pure _
  next hset =>
      have htruth : e.trail.truth (v.lit false) ≠ .unset := fun hu =>
        hset (Trail.isUnset_iff.2 hu)
      -- a variable with a value has a literal on the trail
      obtain ⟨m, hm, hmv⟩ : ∃ m ∈ e.trail, m.var = v := by
        cases ht : e.trail.truth (v.lit false) with
        | unset => exact absurd ht htruth
        | yes => exact ⟨_, (hf.sane.trail.truth_yes _).1 ht, rfl⟩
        | no => exact ⟨_, (hf.sane.trail.truth_no _).1 ht, rfl⟩
      obtain ⟨i, hi⟩ := List.mem_iff_getElem?.1 hm
      simp only [pure_bind, Option.bind_some]
      split
      next => exact succeeds_pure _
      next h hreason =>
          obtain ⟨c, hc, -⟩ := hf.sane.reasons i m h hi (hmv ▸ hreason)
          exact succeeds_bind ⟨c, Store.fetch_eq_ok.2 hc⟩ fun _ _ => succeeds_pure _

theorem traceable_of_led (hf : e.Fit R) (ho : e.Orderly) (hled : e.trail.Led) (hidle : e.Idle)
    (hconf : ∀ h, failed = some h → e.network.Conflict h) : e.Traceable failed where
  reasonLits _ := succeeds_reasonLits hf
  analyze h hh := succeeds_analyze hf ho hled (hconf h hh)
  simplify _ := succeeds_simplify hf ho
  reduce _ e₁ hsimp :=
    succeeds_reduce (reaches_of_simplify hf (False.elim : False → e.Watching) hsimp).1.fit
      (orderly_of_simplify hf ho hsimp)
  assumptions _ e₁ e₂ hsimp hred as n has := by
    obtain ⟨hr₁, hclear, -⟩ := reaches_of_simplify hf (False.elim : False → e.Watching) hsimp
    obtain ⟨hr₂, htrail, -⟩ := reaches_of_reduce hr₁.fit (False.elim : False → e₁.Watching) hred
    refine succeeds_chooseAssumption hr₂.fit ?_ fun p hp => ?_
    · rw [Idle, htrail, hclear.head, hclear.lits]
      exact hidle
    · rw [htrail, hclear.varCount]
      exact has p hp

end Engine

/-! ## Where a propagation begins -/

/-- A round of a search of the solver begins in the state. -/
def Solver.Searches (s : Solver) (e : Engine) : Prop :=
  s.ok = true ∧ ∃ budget as,
    Engine.Round (s.engine.order s.settings.restart budget as) s.engine.opened e

variable {rules : Rules} {s : Solver} {L : Ledger} {e : Engine}

open Engine

theorem Engine.ClausePropagates.ground_or_trial {e₀ : Engine} {lits : List Lit}
    (h : e₀.ClausePropagates lits e) (hr : e₀.Resting True) : e.trail.level = 0 ∨ e.Trial := by
  cases h with
  | tried _ h => exact .inr ⟨lits, e₀, hr.ground, h⟩
  | fact hchecked _ h =>
      refine .inl ?_
      rcases hchecked with ⟨-, himplies⟩ | ⟨-, rfl⟩
      · obtain ⟨-, hr₁, -⟩ := implied_of_implies hr himplies
        exact (reaches_of_fact (hr₁.fit.anti fun _ => False.elim) (fun _ => False.elim) hr₁.ground
          h).2.1.level_eq.trans hr₁.ground
      · exact (reaches_of_fact (hr.fit.anti fun _ => False.elim) (fun _ => False.elim) hr.ground
          h).2.1.level_eq.trans hr.ground

theorem DemandPropagates.ground_or_trial {d : Demand} (h : DemandPropagates s d e)
    (hr : s.ok = true → s.engine.Resting True) : e.trail.level = 0 ∨ e.Trial := by
  induction h with
  | clause hok h => exact h.ground_or_trial (hr hok)
  | atMost hok h =>
      obtain ⟨-, -, h⟩ := h
      rw [← Array.foldlM_toList] at h
      exact .inl (reaches_of_facts ((hr hok).fit.anti fun _ => False.elim) (hr hok).ground
        (fun _ => False.elim) h).2.1
  | tooMany _ _ ih => exact ih hr
  | atLeast _ _ ih => exact ih hr
  | upper _ ih => exact ih hr
  | lower hupper _ ih =>
      rcases Solver.whileOk_eq_ok.1 hupper with ⟨hok, e₁, hadd, rfl⟩ | ⟨-, hno, -⟩
      · obtain ⟨_, -, ha⟩ := Engine.adds_of_addAtMost (hr hok) hadd
        exact ih fun _ => ha.resting
      · cases hno

theorem Engine.Replaying.ground {facts : List Lit} {e₀ : Engine} (h : Replaying facts e₀ e)
    (hf : e₀.Fit fun _ => False) (hground : e₀.trail.level = 0) : e.trail.level = 0 := by
  induction h with
  | here htry => exact (tried_of_tryAssign hf hground (fun _ => False.elim) htry).ground
  | next htry hprop _ ih =>
      have ht := tried_of_tryAssign hf hground (fun _ => False.elim) htry
      have hp := propagated_of_propagate ht.reaches.fit (False.elim : False → Watching _) hprop
      exact ih hp.reaches.fit (hp.longer.level_eq.trans ht.ground)

/-- Outside a search a solver propagates at the ground level, or to try whether a clause follows
from the others. -/
theorem Solver.Propagates.place (hrun : Run { uncanceled := true } s L) (h : s.Propagates L e) :
    e.trail.level = 0 ∨ s.Searches e ∨ e.Trial := by
  have hv := valid_of_run hrun
  have hr : s.ok = true → s.engine.Resting True := fun hok =>
    { hv.resting hok with watching := fun _ => (hv.resting hok).watching (hv.uncanceled rfl) }
  cases h with
  | add d h => exact (h.ground_or_trial hr).imp_right .inr
  | preprocess hok => exact .inl hv.ground
  | solve budget as hok h => exact .inr (.inl ⟨hok, budget, as, h⟩)
  | load hlive hok hdiscard h =>
      have hrecalls := hv.recalls _ hlive
      obtain ⟨-, hf₁, -, -, hground⟩ :=
        Engine.cut_of_discardSince hv.fit hrecalls.incremental hrecalls.restorable hdiscard
      exact .inl (h.ground (hf₁.anti fun _ => False.elim) hground)

/-- A search of a solver is under way in all its rounds. -/
theorem Solver.Searches.underway (hrun : Run { uncanceled := true } s L) (h : s.Searches e) :
    ∃ as : List Lit, Underway (fun _ => False) True as.toArray s.engine e := by
  obtain ⟨hok, budget, as, hround⟩ := h
  have hv := valid_of_run hrun
  have hr := hv.resting hok
  have hopened : Underway (fun _ => False) True as.toArray s.engine s.engine.opened :=
    .opened hv.fit (orderly_of_run hrun) hv.ground (fun _ => hr.watching (hv.uncanceled rfl)) _
  exact ⟨as, underway_of_round hopened hround⟩

/-! ## Reasons -/

/-- Between the calls of a run without canceled searches, and whenever a propagation ends, reasons
are stored and account for their literals, and outside of trials every other literal above the
ground level begins its level. So no lookup of a reason fails, no freed constraint is looked at,
and no literal that is resolved or traced lacks a reason. -/
theorem reasons_of_run (hrun : Run { uncanceled := true } s L) :
    (s.engine.Reasoned ∧ s.engine.trail.Led ∧
      (∀ v : Var, v.index < s.varCount → Succeeds (s.reason v)) ∧
      ∀ p ∈ L.saved, Succeeds (s.engine.discardSince p.1)) ∧
    ∀ e, s.Propagates L e → (e.trail.level = 0 ∨ s.Searches e ∨ e.Trial) ∧
      ∃ failed e', e.propagate = .ok (failed, e') ∧ e'.Reasoned ∧
        (∀ v : Var, v.index < e'.trail.varCount → Succeeds (e'.reasonLits v)) ∧
        (e.trail.level = 0 ∨ s.Searches e → e'.trail.Led ∧ e'.Traceable failed) ∧
        (s.Searches e → ∀ h, failed = some h →
          Succeeds ({ e' with conflicts := e'.conflicts + 1 }.learnFrom h)) := by
  have hv := valid_of_run hrun
  have ho := orderly_of_run hrun
  refine ⟨⟨hv.fit.reasoned, Trail.led_of_ground hv.fit.sane.trail hv.ground, fun v hlt =>
    succeeds_reasonLits hv.fit hlt, fun p hp => ?_⟩, fun e hocc => ⟨hocc.place hrun, ?_⟩⟩
  · obtain ⟨e', he', -⟩ := returns_of_discardSince hv.fit (hv.recalls p hp).incremental
      (hv.recalls p hp).restorable ho
    exact ⟨e', he'⟩
  -- each state that a call propagates is prepared, so what comes of it is fit again
  · have hp := prepared_of_run hrun hocc
    obtain ⟨failed, e', hprop, ho'⟩ := returns_of_propagate hp.fit hp.orderly
    have hpr := propagated_of_propagate hp.fit (fun _ : True => hp.watching) hprop
    have hf' := hpr.reaches.fit
    refine ⟨failed, e', hprop, hf'.reasoned, fun v => succeeds_reasonLits hf', fun hplace => ?_,
      fun hs h hh => ?_⟩
    · have hled : e'.trail.Led := by
        rcases hplace with hground | hs
        · exact Trail.led_of_ground hf'.sane.trail (hpr.longer.level_eq.trans hground)
        · obtain ⟨as, hu⟩ := hs.underway hrun
          exact hu.led.extends hpr.longer hf'.sane.trail hpr.forced
      exact ⟨hled, traceable_of_led hf' ho' hled hpr.idle fun h hh => (hpr.conflict h hh).1⟩
    · obtain ⟨as, hu⟩ := hs.underway hrun
      exact succeeds_learnFrom ((hu.propagate hprop).2.2.2 h hh).counted

/-- Makes the first decision of a search, or the next one, and propagates it. -/
def Engine.firstDecision (e : Engine) (as : Array Lit) :
    Checked (Engine × Option Handle × Engine) := do
  match ← e.propagate with
  | (some _, _) => throw .exhausted
  | (none, e) =>
    match ← (← (← e.simplify).reduce).choose as with
    | (.decide l, e) =>
      let e ← e.decideLit l
      return (e, ← e.propagate)
    | _ => throw .exhausted

theorem round_of_nextDecision {e₀ e e₁ e₂ : Engine} {task : Task} {failed : Option Handle}
    (hr : Round task e₀ e) (h : e.firstDecision task.assumptions = .ok (e₁, failed, e₂)) :
    Round task e₀ e₁ ∧ e₁.propagate = .ok (failed, e₂) := by
  simp only [firstDecision, bind_eq_ok] at h
  obtain ⟨⟨_ | _, a⟩, hprop, h⟩ := h
  · simp only [bind_eq_ok] at h
    obtain ⟨b, hsimp, c, hred, ⟨choice, d⟩, hchoose, h⟩ := h
    cases choice with
    | decide l =>
        simp only [bind_eq_ok, pure_eq_ok, Prod.mk.injEq] at h
        obtain ⟨_, hdecide, _, hprop₁, rfl, rfl⟩ := h
        exact ⟨hr.decide hprop hsimp hred hchoose hdecide, hprop₁⟩
    | complete => cases h
    | failed core => cases h
  · cases h

theorem round_of_firstDecision {e e₁ e₂ : Engine} {task : Task} {failed : Option Handle}
    (h : e.firstDecision task.assumptions = .ok (e₁, failed, e₂)) :
    Round task e e₁ ∧ e₁.propagate = .ok (failed, e₂) := round_of_nextDecision .first h

open Lit in
/-- An assumption that reaches the bound of an at-most constraint, and the literals that it makes
false. -/
theorem reasons_of_reached_bound :
    ∃ s L e e', Run { uncanceled := true } s L ∧ s.Searches e ∧ e.propagate = .ok (none, e') ∧
      e'.trail.lits = #[x0, x1.neg, x2.neg] ∧ e'.trail.level = 1 ∧
      (∃ h, e'.trail.reasonOf x2.var = some h) ∧ e'.Reasoned ∧ e'.trail.Led ∧
      e'.Traceable none := by
  have hpass : ((Solver.ofDemands 3 [.atMost [x0, x1, x2] 1] >>= fun s =>
      s.engine.opened.firstDecision #[x0] >>= fun x => return (s, x)).toOption.any fun x =>
        x.1.ok && x.2.2.1.isNone && x.2.2.2.trail.lits == #[x0, x1.neg, x2.neg] &&
          x.2.2.2.trail.level == 1 && (x.2.2.2.trail.reasonOf x2.var).isSome) = true := by
    simp (disch := decide) only [Solver.ofDemands, Solver.addDemands, Solver.demand,
      Solver.addAtMost, Engine.addAtMost, Lit.sort_of_pairwise]
    decide +kernel
  obtain ⟨s, ⟨s', e, failed, e'⟩, hrun, h, htest⟩ :=
    exists_run_of_test hpass (by decide) (by decide)
  simp only [bind_eq_ok, pure_eq_ok, Prod.mk.injEq] at h
  obtain ⟨_, hfirst, rfl, rfl⟩ := h
  simp only [Bool.and_eq_true, beq_iff_eq, Option.isNone_iff_eq_none, Option.isSome_iff_exists]
    at htest
  obtain ⟨⟨⟨⟨hok, rfl⟩, hlits⟩, hlevel⟩, hreason⟩ := htest
  obtain ⟨hround, hprop⟩ :
      Round (s.engine.order s.settings.restart {} [x0]) s.engine.opened e ∧
        e.propagate = .ok (none, e') := round_of_firstDecision hfirst
  have hsearch : s.Searches e := ⟨hok, {}, [x0], hround⟩
  obtain ⟨-, failed, e₁, hprop₁, hreasoned, -, hplace, -⟩ :=
    (reasons_of_run (hrun _)).2 e (.solve {} [x0] hok hround)
  obtain ⟨rfl, rfl⟩ := Prod.mk.inj (Except.ok.inj (hprop.symm.trans hprop₁))
  obtain ⟨hled, htrace⟩ := hplace (.inr hsearch)
  exact ⟨s, _, e, e', hrun _, hsearch, hprop, hlits, hlevel, hreason, hreasoned, hled, htrace⟩

end CardSat
