import CardSat.Engine.Adding
import CardSat.Proofs.Engine.Steps

set_option autoImplicit false

/-! # Implied clauses

Between two calls an engine is at rest: at the ground level, with all facts in place and nothing
left to propagate (`Engine.Resting`). From there `implies` makes the literals of a clause false on a
level of their own. A world that makes none of them true would agree with everything that follows,
so a conflict shows that there is none.

The argument is that of a learnt clause, but without an analysis: what the sane network derives on
the level holds in every world that agrees with the literals placed there
(`Network.Sane.holds_of_unforced`). The level is taken back afterwards, so the engine is at rest
again.
-/

namespace CardSat

/-! ## What follows from decisions -/

/-- A world in which the constraints hold, and the literals of the first levels that nothing forced,
agrees with these levels of the trail. -/
theorem Network.Sane.holds_of_unforced {n : Network} {dead : Lit → Prop}
    {line : Lit → List Watcher} {w : World} {k : Nat} (hs : n.Sane dead line)
    (hw : ∀ h c, n.store.get? h = some c → c.holds w = true)
    (hfree : ∀ l ∈ n.trail, n.trail.levelOf l.var ≤ k → n.trail.reasonOf l.var = none →
      l.holds w = true) :
    ∀ l ∈ n.trail, n.trail.levelOf l.var ≤ k → l.holds w = true := by
  suffices ∀ (i : Nat) (m : Lit), n.trail.lits.toList[i]? = some m →
      n.trail.levelOf m.var ≤ k → m.holds w = true by
    intro l hl
    obtain ⟨i, hi⟩ := List.mem_iff_getElem?.1 hl
    exact this i l hi
  -- what forced a literal came before it, on a level that is no higher
  intro i
  induction i using Nat.strongRecOn with
  | ind i ih =>
      intro m hi hle
      have hm : m ∈ n.trail := List.mem_of_getElem? hi
      cases hr : n.trail.reasonOf m.var with
      | none => exact hfree m hm hle hr
      | some a =>
          obtain ⟨c, hc, hex⟩ := hs.reasons i m a hi hr
          refine hex.holds hs.trail (hs.formed a c hc) (fun l hl => List.mem_of_mem_take hl) hm
            (hw a c hc) fun l hl => ?_
          have hlev := hs.trail.levelOf_le_of_mem_take hl hi
          obtain ⟨j, hj⟩ := List.mem_iff_getElem?.1 hl
          rw [List.getElem?_take] at hj
          split at hj
          next hji => exact ih j hji l hj (Nat.le_trans hlev hle)
          next => cases hj

namespace Engine

variable {e e' : Engine} {R : World → Prop} {good : Prop} {lits : List Lit}

/-! ## Engines at rest -/

/-- An engine between two calls. -/
structure Resting (good : Prop) (e : Engine) : Prop where
  fit : e.Fit e.Problem
  ground : e.trail.level = 0
  idle : e.Idle
  placed : e.Placed
  watching : good → e.Watching

/-- At rest every literal of the trail follows from the problem. -/
theorem Resting.holds (hr : e.Resting good) {w : World} (hw : e.Problem w) :
    ∀ l ∈ e.trail, l.holds w = true := fun l hl => by
  have := hr.fit.sane.trail.levelOf_le hl
  have hground := hr.ground
  exact hr.fit.sound.ground w hw l hl (Nat.le_zero.1 (hground ▸ this))

/-- Steps that end at the ground level with nothing waiting lead from rest to rest. -/
theorem Reaches.resting {before : Prop} (h : e.Reaches e.Problem e') (hr : e.Resting before)
    (hground : e'.trail.level = 0) (hidle : e'.Idle) (hw : good → e'.Watching) :
    e'.Resting good :=
  ⟨h.fit.anti h.evolves.problem, hground, hidle, h.placed hr.placed, hw⟩

/-! ## Refuting -/

/-- What refuting the literals of a list does. -/
structure Refuted (R : World → Prop) (lits : List Lit) (e : Engine) (b : Bool) (e' : Engine) :
    Prop where
  reaches : e.Reaches R e'
  level : e'.trail.level = e.trail.level
  mem : ∀ m ∈ e'.trail, m ∈ e.trail ∨ m.neg ∈ lits
  found : b = true → ∃ l ∈ lits, l ∈ e'.trail
  watching : e.Watching → e'.Watching

/-- The literals are made false one after another, until one of them is true already. -/
theorem refuted_of_refute : ∀ {lits : List Lit} {e : Engine} {b : Bool}, e.Fit R →
    0 < e.trail.level → e.refute lits = .ok (b, e') → Refuted R lits e b e' := by
  intro lits
  induction lits with
  | nil =>
      intro e b hf _ h
      simp only [refute, pure_eq_ok, Prod.mk.injEq] at h
      obtain ⟨rfl, rfl⟩ := h
      exact ⟨.refl hf, rfl, fun _ => Or.inl, by simp, id⟩
  | cons l rest ih =>
      -- a true literal ends the loop, a false one is passed, and any other is made false
      intro e b hf hpos h
      simp only [refute, bind_eq_ok, Trail.value_eq_ok] at h
      obtain ⟨x, ⟨-, hx⟩, h⟩ := h
      cases x with
      | yes =>
          simp only [pure_eq_ok, Prod.mk.injEq] at h
          obtain ⟨rfl, rfl⟩ := h
          exact ⟨.refl hf, rfl, fun _ => Or.inl,
            fun _ => ⟨l, by simp, (hf.sane.trail.truth_yes l).1 hx⟩, id⟩
      | no =>
          have hr := ih hf hpos h
          exact ⟨hr.reaches, hr.level, fun m hm => (hr.mem m hm).imp_right (List.mem_cons_of_mem l),
            fun hb => (hr.found hb).imp fun _ hm => ⟨List.mem_cons_of_mem l hm.1, hm.2⟩,
            hr.watching⟩
      | unset =>
          simp only [bind_eq_ok] at h
          obtain ⟨e₁, hassign, h⟩ := h
          obtain ⟨hr₁, ha, -, hw₁⟩ := reaches_of_assign hf (by simp) (fun h0 => by omega) hassign
          have hr := ih hr₁.fit (ha.level_eq ▸ hpos) h
          refine ⟨hr₁.trans hr.reaches, hr.level.trans ha.level_eq, fun m hm => ?_,
            fun hb => (hr.found hb).imp fun _ hm => ⟨List.mem_cons_of_mem l hm.1, hm.2⟩,
            fun hw => hr.watching (hw₁ _ hw)⟩
          rcases hr.mem m hm with hm | hm
          · rcases ha.mem_iff.1 hm with hm | rfl
            · exact Or.inl hm
            · right
              simp [Lit.neg_neg]
          · exact Or.inr (List.mem_cons_of_mem l hm)

/-! ## Implied clauses -/

/-- What follows when the literals of a clause are false holds in every world in which they
are. -/
theorem Refuted.holds {b : Bool} (hr : Refuted R lits e b e') (hground : ∀ w, R w →
    ∀ l ∈ e.trail, l.holds w = true) {w : World} (hw : R w) (hno : w.clauseHolds lits = false) :
    ∀ m ∈ e'.trail, m.holds w = true := by
  intro m hm
  rcases hr.mem m hm with hm | hm
  · exact hground w hw m hm
  · by_contra hmw
    rw [← Bool.not_eq_true, World.clauseHolds_iff] at hno
    exact hno ⟨m.neg, hm, by simpa using hmw⟩

/-- A clause that is found to be implied holds in every world of the problem. -/
theorem implied_of_implies {b : Bool} (hr : e.Resting good)
    (h : e.implies lits = .ok (b, e')) :
    e.Reaches e.Problem e' ∧ e'.Resting good ∧
      (b = true → ∀ w, e.Problem w → w.clauseHolds lits = true) := by
  have hf := hr.fit
  have hopen := reaches_of_openLevel hf hr.idle
  simp only [implies, bind_eq_ok] at h
  obtain ⟨_, -, ⟨found, e₁⟩, hrefute, h⟩ := h
  have hr₁ := refuted_of_refute hopen.fit (by rw [trail, Trail.level_openLevel]; omega) hrefute
  have hf₁ := hr₁.reaches.fit
  have hreach := hopen.trans hr₁.reaches
  have hlevel : e₁.trail.level = 1 := by
    rw [hr₁.level, trail, Trail.level_openLevel]
    exact congrArg (· + 1) hr.ground
  have hwatch : good → e₁.Watching := fun hg => hr₁.watching (hr.watching hg).openLevel
  -- a world that refutes the clause agrees with the trail
  have hagree : ∀ w, e.Problem w → w.clauseHolds lits = false →
      ∀ m ∈ e₁.trail, m.holds w = true := fun w hw hno =>
    hr₁.holds (fun w hw => hr.holds hw) hw hno
  cases found with
  | true =>
      simp only [bind_eq_ok, pure_eq_ok, Prod.mk.injEq] at h
      obtain ⟨e₂, hcancel, rfl, rfl⟩ := h
      have hback := hreach.trans (reaches_of_cancelUntil hf₁ hcancel)
      have hground : e₂.trail.level = 0 := by rw [level_of_cancelUntil hcancel, Nat.zero_min]
      refine ⟨hback, hback.resting hr hground ?_ fun hg => watching_of_cancelUntil hf₁ (hwatch hg)
        hcancel, fun _ w hw => ?_⟩
      · rw [Idle, trail, network_of_cancelUntil hcancel]
        exact Trail.head_rewind_of_lt hf₁.sane.trail hf₁.sane.queued (hlevel ▸ Nat.one_pos)
      · obtain ⟨l, hl, hlt⟩ := hr₁.found rfl
        by_contra hno
        rw [Bool.not_eq_true] at hno
        have := hagree w hw hno l hlt
        rw [← Bool.not_eq_true, World.clauseHolds_iff] at hno
        exact hno ⟨l, hl, this⟩
  | false =>
      simp only [bind_eq_ok, pure_eq_ok, Prod.mk.injEq] at h
      obtain ⟨⟨failed, e₂⟩, hprop, e₃, hcancel, rfl, rfl⟩ := h
      have hp := propagated_of_propagate hf₁ hwatch hprop
      have hf₂ := hp.reaches.fit
      have hback := (hreach.trans hp.reaches).trans (reaches_of_cancelUntil hf₂ hcancel)
      have hground : e₃.trail.level = 0 := by rw [level_of_cancelUntil hcancel, Nat.zero_min]
      have hlevel₂ : 0 < e₂.trail.level := by
        rw [hp.longer.level_eq, hlevel]
        exact Nat.one_pos
      refine ⟨hback, hback.resting hr hground (idle_of_cancelUntil hf₂.sane.trail hp.idle hcancel)
        fun hg => ?_, fun hsome w hw => ?_⟩
      · cases failed with
        | none => exact watching_of_cancelUntil hf₂ (hp.watching rfl hg) hcancel
        | some a =>
            exact watching_of_cancelUntil_below hf₂ ((hp.conflict a rfl).2 hg) hlevel₂ hcancel
      · obtain ⟨a, rfl⟩ := Option.isSome_iff_exists.1 hsome
        obtain ⟨⟨c, hc, hfalse, -⟩, -⟩ := hp.conflict a rfl
        by_contra hno
        rw [Bool.not_eq_true] at hno
        have hstored := hf₂.sound.stored w hw
        have hunforced : ∀ m ∈ e₂.trail, e₂.trail.levelOf m.var ≤ e₂.trail.level →
            e₂.trail.reasonOf m.var = none → m.holds w = true := fun m hm _ hnone => by
          rcases hp.forced m hm with hm | ⟨a, ha⟩
          · exact hagree w hw hno m hm
          · rw [hnone] at ha
            cases ha
        have hall : ∀ m ∈ e₂.trail, m.holds w = true := fun m hm =>
          hf₂.sane.holds_of_unforced hstored hunforced m hm (hf₂.sane.trail.levelOf_le hm)
        have := Network.not_holds_of_falsified hf₂.sane.trail (hf₂.sane.formed a c hc) hfalse hall
        rw [hstored a c hc] at this
        cases this

end Engine

end CardSat
