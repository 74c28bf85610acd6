import CardSat.Proofs.Bounds
import CardSat.Proofs.Database.Thinning
import CardSat.Proofs.Engine.Closure
import CardSat.Proofs.Trail.Reopening

set_option autoImplicit false

/-! # Adding a clause

A clause may be added at the ground level whatever its literals are: they may be repeated,
complementary, or have a value already. Adding it is not refused, and afterwards the worlds are
those that satisfy the clause (`worlds_of_addClause`).

If the settings ask for it, it is first tried whether the clause is implied. Every way out of
this attempt takes back everything that was tried (`same_of_implies`), and a positive answer is
right (`implied_of_implies`).
-/

namespace CardSat

open Lit (x0 x1 x2)

namespace Engine

variable {e e' : Engine} {R : World → Prop} {good : Prop} {b : Bool} {l : Lit} {lits : List Lit}

/-- The worlds in which the given constraints, the facts and the literals of the ground level
hold. -/
structure Stated (e : Engine) (w : World) : Prop where
  given : ∀ h ∈ e.database.given.toList, ∀ c, e.store.get? h = some c → c.holds w = true
  units : ∀ l ∈ e.database.units.toList, l.holds w = true
  ground : ∀ l ∈ e.trail, e.trail.levelOf l.var = 0 → l.holds w = true

/-- At rest the literals of the ground level say nothing more than the problem. -/
theorem Resting.stated_iff (hr : e.Resting good) {w : World} : e.Stated w ↔ e.Problem w := by
  constructor
  · exact fun hw => ⟨hw.given, hw.units, fun _ => hw.ground⟩
  · exact fun hw => ⟨hw.given, hw.units, hr.fit.sound.ground w hw⟩

/-! ## Trying a clause -/

theorem extends_of_refute (hv : e.trail.Valid) (h : e.refute lits = .ok (b, e')) :
    e.trail.Extends e'.trail ∧ e'.store = e.store := by
  induction lits generalizing e with
  | nil =>
    obtain ⟨-, rfl⟩ := Prod.mk.inj (pure_eq_ok.1 h)
    exact ⟨.refl _, rfl⟩
  | cons l rest ih =>
    simp only [refute, bind_eq_ok] at h
    obtain ⟨x, -, h⟩ := h
    cases x with
    | yes =>
      obtain ⟨-, rfl⟩ := Prod.mk.inj (pure_eq_ok.1 h)
      exact ⟨.refl _, rfl⟩
    | no => exact ih hv h
    | unset =>
      obtain ⟨e₁, hassign, h⟩ := bind_eq_ok.1 h
      obtain ⟨t, ht, rfl⟩ := assign_eq_ok.1 hassign
      have ha := Trail.assigned_of_assign ht
      obtain ⟨hx, hstore⟩ := ih (ha.valid hv) h
      exact ⟨(ha.extends hv).trans hx, hstore⟩

/-- Whether the attempt succeeds or fails, nothing is left of it on the trail, and of the stored
constraints only the order of literals may have changed. -/
theorem same_of_implies (hr : e.Resting good) (h : e.implies lits = .ok (b, e')) :
    e.trail.Same e'.trail ∧ e.store.Same e'.store := by
  have hopen := reaches_of_openLevel hr.fit hr.idle
  have hv := hr.fit.sane.trail
  simp only [implies, bind_eq_ok] at h
  obtain ⟨_, -, ⟨found, e₁⟩, hrefute, h⟩ := h
  have hf₁ := (refuted_of_refute hopen.fit (by rw [trail, Trail.level_openLevel]; omega)
    hrefute).reaches.fit
  obtain ⟨hx₁, hstore₁⟩ := extends_of_refute hopen.fit.sane.trail hrefute
  -- both ways out take the level back
  have hback : ∀ {e₂ e₃ : Engine}, e₂.Fit e.Problem → e₁.trail.Extends e₂.trail →
      e₂.cancelUntil 0 = .ok e₃ → e.trail.Same e₃.trail := fun {e₂ e₃} hf₂ hx₂ hcancel => by
    have hsame := Trail.same_of_rewind hv hr.idle (hx₁.trans hx₂) hf₂.sane.trail hf₂.sane.queued
    rw [trail_of_cancelUntil hcancel]
    rwa [hr.ground] at hsame
  have hstored : ∀ {e₂ e₃ : Engine}, e₂.cancelUntil 0 = .ok e₃ → e₃.store = e₂.store :=
    fun hcancel => by rw [store, network_of_cancelUntil hcancel]
  cases found with
  | true =>
    obtain ⟨e₂, hcancel, h⟩ := bind_eq_ok.1 h
    obtain ⟨-, rfl⟩ := Prod.mk.inj (pure_eq_ok.1 h)
    rw [hstored hcancel, hstore₁]
    exact ⟨hback hf₁ (.refl _) hcancel, .refl _⟩
  | false =>
    obtain ⟨⟨failed, e₂⟩, hprop, h⟩ := bind_eq_ok.1 h
    obtain ⟨e₃, hcancel, h⟩ := bind_eq_ok.1 h
    obtain ⟨-, rfl⟩ := Prod.mk.inj (pure_eq_ok.1 h)
    have hp := propagated_of_propagate hf₁ (fun hno : False => hno.elim) hprop
    refine ⟨hback hp.reaches.fit hp.longer hcancel, ?_⟩
    rw [hstored hcancel]
    exact hstore₁ ▸ stored_of_propagate hf₁ hprop

/-! ## Adding is not refused -/

theorem succeeds_refute (hv : e.trail.Valid) (hlits : ∀ l ∈ lits, l.var.index < e.trail.varCount) :
    Succeeds (e.refute lits) := by
  induction lits generalizing e with
  | nil => exact succeeds_pure _
  | cons l rest ih =>
    obtain ⟨hl, hrest⟩ := List.forall_mem_cons.1 hlits
    rw [refute, Trail.value_eq_ok.2 ⟨hl, rfl⟩, ok_bind]
    cases hx : e.trail.truth l with
    | yes => exact succeeds_pure _
    | no => exact ih hv hrest
    | unset =>
      have hneg : e.trail.truth l.neg = .unset := by rw [Trail.truth_neg, hx]; rfl
      obtain ⟨t, ht⟩ := Trail.succeeds_assign (l := l.neg) hl hneg none
      have ha := Trail.assigned_of_assign ht
      refine succeeds_bind ⟨_, bind_eq_ok.2 ⟨t, ht, rfl⟩⟩ fun e₁ hassign => ?_
      obtain ⟨t', ht', rfl⟩ := assign_eq_ok.1 hassign
      obtain rfl := Except.ok.inj (ht.symm.trans ht')
      exact ih (ha.valid hv) fun m hm => Nat.lt_of_lt_of_eq (hrest m hm) ha.varCount.symm

theorem succeeds_implies (hr : e.Resting good) (ho : e.Orderly)
    (hlits : ∀ l ∈ lits, l.var.index < e.trail.varCount) : Succeeds (e.implies lits) := by
  have hopen := reaches_of_openLevel hr.fit hr.idle
  refine succeeds_bind (succeeds_require _ (beq_iff_eq.2 hr.ground)) fun _ _ => ?_
  refine succeeds_bind (succeeds_refute hopen.fit.sane.trail hlits) fun x hrefute => ?_
  obtain ⟨found, e₁⟩ := x
  have hf₁ := (refuted_of_refute hopen.fit (by rw [trail, Trail.level_openLevel]; omega)
    hrefute).reaches.fit
  have ho₁ := orderly_of_refute ho.openLevel hrefute
  cases found with
  | true => exact succeeds_bind (succeeds_cancelUntil hf₁ ho₁ 0) fun _ _ => succeeds_pure _
  | false =>
    obtain ⟨failed, e₂, hprop, ho₂⟩ := returns_of_propagate hf₁ ho₁
    have hp := propagated_of_propagate hf₁ (fun hno : False => hno.elim) hprop
    show Succeeds (e₁.propagate >>= _)
    rw [hprop, ok_bind]
    exact succeeds_bind (succeeds_cancelUntil hp.reaches.fit ho₂ 0) fun _ _ => succeeds_pure _

/-- Facts can be propagated. -/
theorem succeeds_propagateFacts (hf : e.Fit R) (ho : e.Orderly) : Succeeds e.propagateFacts := by
  obtain ⟨failed, e', hprop, -⟩ := returns_of_propagate hf ho
  exact succeeds_bind ⟨_, hprop⟩ fun _ _ => succeeds_pure _

theorem succeeds_storeClause (hf : e.Fit R) (ho : e.Orderly) (htwo : 2 ≤ lits.length)
    (hdistinct : (lits.map Lit.var).Nodup) (hlits : ∀ l ∈ lits, l.var.index < e.trail.varCount) :
    Succeeds (e.storeClause lits) := by
  have hwf : (⟨.clause, lits.toArray⟩ : Constraint).WellFormed e.trail.varCount :=
    ⟨hdistinct, hlits, by simpa [Constraint.size] using htwo, by simp⟩
  obtain ⟨⟨a, db, store⟩, hadd⟩ : Succeeds (e.database.addClause e.store lits.toArray) :=
    succeeds_bind (succeeds_bind (succeeds_require _ (decide_eq_true hwf.two_le)) fun _ _ =>
      succeeds_pure _) fun _ _ => succeeds_pure _
  obtain ⟨hadded, -⟩ := Database.added_of_addGiven (fun _ _ hk => by cases hk) hf.listed hadd
  have hget : store.get? a = some ⟨.clause, lits.toArray⟩ := by rw [hadded.get?, if_pos rfl]
  obtain ⟨index, hindex⟩ := WatchIndex.succeeds_watch (h := a) ho.tended.covers hwf rfl
  refine succeeds_bind ⟨_, hadd⟩ fun x hx => ?_
  obtain rfl := Except.ok.inj (hadd.symm.trans hx)
  exact ⟨_, bind_eq_ok.2 ⟨_, Store.fetch_eq_ok.2 hget, bind_eq_ok.2 ⟨index, hindex, rfl⟩⟩⟩

theorem succeeds_addReduced (hr : e.Resting good) (ho : e.Orderly)
    (hlits : ∀ l ∈ lits, l.var.index < e.trail.varCount) : Succeeds (e.addReduced lits) := by
  have hv := hr.fit.sane.trail
  obtain ⟨left, hleft⟩ : Succeeds ((Lit.sortDistinct lits).filterM fun l => do
      return !(← e.trail.isFalse l)) :=
    succeeds_filterM fun l hl => succeeds_bind
      (Trail.succeeds_isFalse (hlits l (Lit.mem_sortDistinct.1 hl))) fun _ _ => succeeds_pure _
  obtain ⟨-, hmem, -⟩ := mem_left hv hleft
  have hknown : ∀ l ∈ left, l.var.index < e.trail.varCount := fun l hl => hlits l ((hmem l).1 hl).1
  obtain ⟨sat, hsat⟩ : Succeeds (left.anyM e.trail.isTrue) :=
    succeeds_anyM fun l hl => Trail.succeeds_isTrue (hknown l hl)
  have hany := anyM_ok (p := fun l => decide (e.trail.truth l = .yes))
    (fun a _ r hr => (Trail.isTrue_eq_ok hr).2) hsat
  rw [addReduced, hleft, ok_bind, hsat, ok_bind]
  split
  next => exact succeeds_pure _
  next hcond =>
    rw [Bool.or_eq_true, not_or, Bool.not_eq_true, Bool.not_eq_true] at hcond
    split
    next => exact succeeds_pure _
    next l =>
      -- the literal is neither false nor true
      have hunset : e.trail.truth l = .unset := by
        have hyes : e.trail.truth l ≠ .yes := by simpa [hcond.2] using hany
        refine (hv.truth_unset l).2 ⟨fun hl => hyes ((hv.truth_yes l).2 hl), ?_⟩
        exact ((hmem l).1 (by simp)).2
      obtain ⟨e₁, hfact, -⟩ := returns_of_addFact (hknown l (by simp)) hunset
      rw [hfact, ok_bind]
      have hreach := (reaches_of_fact (hr.fit.anti fun _ => False.elim) (fun w => False.elim)
        hr.ground hfact).1
      exact succeeds_propagateFacts hreach.fit (orderly_of_addFact ho hfact)
    next hnil hsingle =>
      obtain ⟨e₁, hstore⟩ := succeeds_storeClause hr.fit ho (two_le_length hnil hsingle)
        (nodup_left hv hleft hcond.1) hknown
      exact succeeds_bind ⟨e₁, hstore⟩ fun _ _ => succeeds_pure _

theorem succeeds_addClause (hr : e.Resting good) (ho : e.Orderly)
    (hlits : ∀ l ∈ lits, l.var.index < e.trail.varCount) : Succeeds (e.addClause lits) := by
  refine succeeds_bind (succeeds_require _ (beq_iff_eq.2 hr.ground)) fun _ _ => ?_
  split
  next =>
    refine succeeds_bind (succeeds_implies hr ho hlits) fun x himplied => ?_
    obtain ⟨implied, e₁⟩ := x
    cases implied with
    | true => exact succeeds_pure _
    | false =>
      obtain ⟨-, hr₁, -⟩ := implied_of_implies hr himplied
      have hsame := (same_of_implies hr himplied).1
      refine succeeds_addReduced hr₁ (orderly_of_implies hr.fit hr.idle ho himplied) fun l hl => ?_
      exact Nat.lt_of_lt_of_eq (hlits l hl) hsame.varCount.symm
  next => exact succeeds_addReduced hr ho hlits

/-! ## What is stored -/

/-- A clause of the problem that has at least two literals, over different variables without
values. -/
structure Unsettled (t : Trail) (c : Constraint) : Prop where
  kind : c.kind = .clause
  two_le : 2 ≤ c.lits.size
  distinct : (c.lits.toList.map Lit.var).Nodup
  unset : ∀ l ∈ c.lits.toList, t.truth l = .unset

/-- What is stored afterwards was stored before, or is an unsettled clause. -/
def StoresUnsettled (e e' : Engine) : Prop :=
  ∀ a c, e'.store.get? a = some c →
    (∃ c₀, e.store.get? a = some c₀ ∧ c₀.Same c) ∨ Unsettled e.trail c ∧ Unsettled e'.trail c

theorem StoresUnsettled.of_same (h : e.store.Same e'.store) : e.StoresUnsettled e' :=
  fun a c hc => .inl (h.back a c hc)

theorem storesUnsettled_of_storeClause (hf : e.Fit R) (htwo : 2 ≤ lits.length)
    (hdistinct : (lits.map Lit.var).Nodup) (hunset : ∀ l ∈ lits, e.trail.truth l = .unset)
    (h : e.storeClause lits = .ok e') : e.StoresUnsettled e' := by
  obtain ⟨⟨a, db, store⟩, hadd, hwatch⟩ := bind_eq_ok.1 h
  obtain ⟨hadded, -⟩ := Database.added_of_addGiven (fun _ _ hk => by cases hk) hf.listed hadd
  obtain ⟨c, index, -, -, rfl⟩ := watch_eq_ok hwatch
  have hu : Unsettled e.trail ⟨.clause, lits.toArray⟩ :=
    ⟨rfl, by simpa using htwo, by simpa using hdistinct, by simpa using hunset⟩
  intro a' c' hc'
  have hget : store.get? a' = some c' := hc'
  rw [hadded.get?] at hget
  split at hget
  next =>
    obtain rfl := Option.some.inj hget
    exact .inr ⟨hu, hu⟩
  next => exact .inl ⟨c', hget, .refl c'⟩

theorem storesUnsettled_of_addReduced (hr : e.Resting good) (h : e.addReduced lits = .ok (b, e')) :
    e.StoresUnsettled e' := by
  have hv := hr.fit.sane.trail
  obtain ⟨left, hmem, -, hred⟩ := reduced_of_addReduced hv h
  cases hred with
  | tautology | satisfied | falsified => exact .of_same (.refl _)
  | @fact l _ e₁ _ _ hfact hfacts =>
    obtain ⟨⟨failed, e₂⟩, hprop, h⟩ := bind_eq_ok.1 hfacts
    obtain ⟨-, rfl⟩ := Prod.mk.inj (pure_eq_ok.1 h)
    have hreach := (reaches_of_fact (hr.fit.anti fun _ => False.elim) (fun w => False.elim)
      hr.ground hfact).1
    have hstore : e₁.store = e.store := by
      obtain ⟨t, -, rfl⟩ := assign_eq_ok.1 hfact
      rfl
    exact .of_same (hstore ▸ stored_of_propagate hreach.fit hprop)
  | stored htwo hdistinct hunset hstore =>
    exact storesUnsettled_of_storeClause hr.fit htwo hdistinct
      (fun l hl => (hv.truth_unset l).2 ⟨hunset l hl, ((hmem l).1 hl).2⟩) hstore

theorem Unsettled.same {t t' : Trail} {c : Constraint} (h : Unsettled t' c) (hs : t.Same t') :
    Unsettled t c :=
  ⟨h.kind, h.two_le, h.distinct, fun l hl => (hs.truth l).symm.trans (h.unset l hl)⟩

/-! ## What adding a clause does -/

/-- What adding a clause does to an engine; the answer `b` is whether there may be a world left. -/
structure AddsClause (lits : List Lit) (e : Engine) (b : Bool) (e' : Engine) : Prop where
  /-- Afterwards the worlds are those that satisfy the clause. -/
  stated_iff : b = true → ∀ w, e'.Stated w ↔ e.Stated w ∧ w.clauseHolds lits = true
  /-- If the answer is false, there are none. -/
  refuted : b = false → ∀ w, ¬ (e.Stated w ∧ w.clauseHolds lits = true)
  /-- What is stored has at least two literals, over different variables without values. -/
  stored : e.StoresUnsettled e'
  /-- If the clause is found to be implied, it is, and nothing has changed. -/
  implied : e.settings.checkImplied = true → ∀ e₁, e.implies lits = .ok (true, e₁) →
    b = true ∧ e.trail.Same e'.trail ∧ e.store.Same e'.store ∧
      ∀ w, e.Stated w → w.clauseHolds lits = true

theorem AddsClause.of_addReduced (hr : e.Resting good) (hcheck : e.settings.checkImplied = false)
    (h : e.addReduced lits = .ok (b, e')) : AddsClause lits e b e' := by
  have ha : Adds (fun w => w.clauseHolds lits = true) good e b e' := adds_of_addReduced hr h
  refine ⟨?_, ?_, storesUnsettled_of_addReduced hr h, fun hyes => ?_⟩
  · rintro rfl w
    rw [ha.resting.stated_iff, ha.problem_iff, hr.stated_iff]
  · exact fun hb w hw => ha.refuted hb w (hr.stated_iff.1 hw.1) hw.2
  · rw [hcheck] at hyes
    cases hyes

theorem addsClause_of_addClause (hr : e.Resting good) (h : e.addClause lits = .ok (b, e')) :
    AddsClause lits e b e' := by
  have ha : Adds (fun w => w.clauseHolds lits = true) good e b e' := adds_of_addClause hr h
  simp only [addClause, bind_eq_ok] at h
  obtain ⟨_, -, h⟩ := h
  split at h
  next hcheck =>
    obtain ⟨⟨implied, e₁⟩, himplied, h⟩ := bind_eq_ok.1 h
    obtain ⟨hsame, hstore⟩ := same_of_implies hr himplied
    obtain ⟨-, hr₁, hyes⟩ := implied_of_implies hr himplied
    have hfollows : implied = true → ∀ w, e.Stated w → w.clauseHolds lits = true :=
      fun hb w hw => hyes hb w (hr.stated_iff.1 hw)
    refine ⟨?_, fun hb w hw => ha.refuted hb w (hr.stated_iff.1 hw.1) hw.2, ?_, ?_⟩
    · rintro rfl w
      rw [ha.resting.stated_iff, ha.problem_iff, hr.stated_iff]
    · cases implied with
      | true =>
        obtain ⟨-, rfl⟩ := Prod.mk.inj (pure_eq_ok.1 h)
        exact .of_same hstore
      | false =>
        -- what is stored after the attempt was stored before it, but for the order of literals
        intro a c hc
        rcases storesUnsettled_of_addReduced hr₁ h a c hc with ⟨c₁, hc₁, hsame₁⟩ | ⟨hu, hu'⟩
        · obtain ⟨c₀, hc₀, hsame₀⟩ := hstore.back a c₁ hc₁
          exact .inl ⟨c₀, hc₀, hsame₀.trans hsame₁⟩
        · exact .inr ⟨hu.same hsame, hu'⟩
    · intro _ e₂ himplied'
      obtain ⟨rfl, rfl⟩ := Prod.mk.inj (Except.ok.inj (himplied.symm.trans himplied'))
      obtain ⟨rfl, rfl⟩ := Prod.mk.inj (pure_eq_ok.1 h)
      exact ⟨rfl, hsame, hstore, hfollows rfl⟩
  next hcheck => exact .of_addReduced hr (Bool.not_eq_true _ ▸ hcheck) h

end Engine

variable {rules : Rules} {s : Solver} {L : Ledger} {lits : List Lit}

/-- At the ground level a clause over known variables is added exactly as it is meant, whatever
its literals are, and whether or not it is first tried if it is implied. -/
theorem worlds_of_addClause (h : Session rules s L) (hok : s.ok = true)
    (hground : s.engine.trail.level = 0) (hlits : ∀ l ∈ lits, l.var.index < s.varCount) :
    ∃ b s', s.addClause lits = .ok (b, s') ∧ s'.ok = b ∧
      s.engine.AddsClause lits b s'.engine := by
  obtain ⟨s₀, hv, hd, -⟩ := directed_of_session h
  have hr := (hd.valid hv hground).resting hok
  obtain ⟨⟨b, e⟩, hadd⟩ : Succeeds (s.engine.addClause lits) :=
    Engine.succeeds_addClause hr (orderly_of_session h) hlits
  refine ⟨b, { s with ok := b, engine := e }, ?_, rfl, Engine.addsClause_of_addClause hr hadd⟩
  rw [Solver.addClause, Solver.whileOk, if_pos hok, hadd]
  rfl

/-- One of the literals is false already, and another one is repeated. -/
theorem worlds_of_clause_after_fact :
    ∃ s s', Session {} s { added := [.clause [x0]] } ∧ x0 ∈ s.engine.trail ∧
      s.addClause [x0.neg, x1, x1, x2] = .ok (true, s') ∧ s'.engine.database.given.size = 1 ∧
      s.engine.AddsClause [x0.neg, x1, x1, x2] true s'.engine := by
  have hpass : ((Solver.ofDemands 3 [.clause [x0]] >>= fun s =>
      s.addClause [x0.neg, x1, x1, x2] >>= fun x => return (s, x)).toOption.any fun x =>
        x.1.ok && x.1.engine.trail.level == 0 && x.1.varCount == 3 && x.2.1 &&
          x.1.engine.trail.lits == #[x0] && x.2.2.engine.database.given.size == 1) = true := by
    simp only [Solver.ofDemands, Solver.addDemands, Solver.demand, Solver.addClause,
      Engine.addClause, Engine.addReduced, Lit.sortDistinct, Lit.sort_eq_insertionSort]
    decide +kernel
  obtain ⟨s, x, hrun, h, hx⟩ := exists_run_of_test hpass (by decide) (by decide)
  simp only [bind_eq_ok, pure_eq_ok] at h
  obtain ⟨⟨b, s'⟩, hadd, rfl⟩ := h
  simp only [Bool.and_eq_true, beq_iff_eq] at hx
  obtain ⟨⟨⟨⟨⟨hok, hground⟩, hvars⟩, rfl⟩, htrail⟩, hgiven⟩ := hx
  have hs : Session {} s { added := [.clause [x0]] } := session_of_run (hrun _)
  have hknown : ∀ l ∈ [x0.neg, x1, x1, x2], l.var.index < s.varCount := by
    rw [hvars]
    decide
  obtain ⟨b, s'', hadd', -, hadds⟩ := worlds_of_addClause hs hok hground hknown
  obtain ⟨rfl, rfl⟩ := Prod.mk.inj (Except.ok.inj (hadd'.symm.trans hadd))
  exact ⟨s, s'', hs, (Trail.mem_def).2 (by simp [htrail]), hadd, hgiven, hadds⟩

end CardSat
