import CardSat.Proofs.Engine.Orderly

set_option autoImplicit false

/-! # The first engine and its variables

An engine without variables is at rest, and so is one at rest to which a variable has been
added. A new variable belongs to no constraint, so the problem stays the same.
-/

namespace CardSat

namespace Engine

variable {e e' : Engine} {R : World → Prop} {good : Prop} {v : Var} {negated decision : Bool}

/-! ## No variables -/

/-- Nothing is stored. -/
theorem get?_empty (h : Handle) : Store.empty.get? h = none := by
  simp [Store.get?, Store.empty]

/-- Nothing is on watch. -/
theorem line_empty (l : Lit) : WatchIndex.line .empty l = [] := by
  simp [WatchIndex.line, DenseTable.empty]

/-- A new engine is at rest, without variables, and every world solves its problem. -/
theorem resting_of_empty {settings : Settings} (h : Engine.empty settings = .ok e) :
    e.Resting good ∧ e.trail.varCount = 0 ∧ ∀ w, e.Problem w := by
  simp only [Engine.empty, bind_eq_ok, pure_eq_ok] at h
  obtain ⟨d, hd, rfl⟩ := h
  -- nothing is stored and nothing is true, so most of the invariant is empty
  have hnone : ∀ l, l ∉ Trail.empty := fun l hl => by simp [Trail.mem_def, Trail.empty] at hl
  have hget : ∀ {a : Handle} {c : Constraint}, Store.empty.get? a = some c → False := fun hc => by
    rw [get?_empty] at hc
    cases hc
  refine ⟨⟨⟨⟨Trail.valid_empty, Trail.queued_empty, fun a c hc => (hget hc).elim,
      ⟨fun a c hc => (hget hc).elim, fun l x hx => ?_, fun l x hx => ?_⟩, fun i m a hi => ?_,
      fun l hl => ?_⟩, ⟨fun w _ a c hc => (hget hc).elim, fun w _ l hl => absurd hl (hnone l)⟩,
      fun w _ l hl => ?_, ?_, ?_, Marks.clean_empty,
      fun i hi => absurd hi (Nat.not_lt_zero i)⟩, rfl, rfl, fun l hl => ?_,
    fun _ a c hc => (hget hc).elim⟩, rfl, fun w => ⟨fun a _ c hc => (hget hc).elim,
    by simp [Database.empty], fun _ l hl => absurd hl (hnone l)⟩⟩
  · exact absurd (line_empty l ▸ hx) List.not_mem_nil
  · exact absurd (line_empty l ▸ hx) List.not_mem_nil
  · exact absurd (List.mem_of_getElem? hi) (hnone m)
  · exact absurd hl.2.1 (hnone _)
  · exact absurd hl List.not_mem_nil
  · exact ⟨List.nodup_nil, fun a c hc => (hget hc).elim, by simp [Database.empty],
      fun a _ c hc => (hget hc).elim, fun a _ c hc => (hget hc).elim⟩
  · exact (Decisions.ready_empty hd).mono fun v hv => absurd hv.1 (Nat.not_lt_zero _)
  · exact absurd hl List.not_mem_nil

/-- A new engine is in order. -/
theorem orderly_of_empty {settings : Settings} (h : Engine.empty settings = .ok e) :
    e.Orderly := by
  simp only [Engine.empty, bind_eq_ok, pure_eq_ok] at h
  obtain ⟨d, hd, rfl⟩ := h
  refine ⟨⟨Nat.le_refl 0, fun l _ x hx => ?_⟩, fun a ha => ?_, ⟨rfl, rfl, rfl, rfl⟩, fun v => ?_⟩
  · exact absurd (line_empty l ▸ hx) List.not_mem_nil
  · exact absurd ha List.not_mem_nil
  · rw [Decisions.decides_empty hd]
    simp [Trail.varCount, Network.empty, Trail.empty]

/-! ## A new variable -/

/-- What adding a variable does. -/
structure NewVar (R : World → Prop) (decision : Bool) (e : Engine) (v : Var) (e' : Engine) :
    Prop where
  fit : e'.Fit R
  evolves : e.Evolves e'
  var : v = ⟨e.trail.varCount⟩
  varCount : e'.trail.varCount = e.trail.varCount + 1
  decides : ∀ u, e'.decisions.decides u = if u = v then some decision else e.decisions.decides u
  level : e'.trail.level = e.trail.level
  idle : e.Idle → e'.Idle
  placed : e.Placed → e'.Placed
  watching : e.Watching → e'.Watching

/-- What a new variable does to a fit engine. -/
theorem newVar_of_newVar (hf : e.Fit R) (h : e.newVar negated decision = .ok (v, e')) :
    NewVar R decision e v e' := by
  simp only [newVar, bind_eq_ok, pure_eq_ok, Prod.mk.injEq] at h
  obtain ⟨⟨u, t⟩, ht, d, hd, rfl, rfl⟩ := h
  obtain ⟨hu, -, rfl⟩ := Trail.newVar_eq_ok ht
  obtain ⟨hready, hdec⟩ := Decisions.addVar_ready hd hf.ready
  -- the new cell is at level zero, which is what a variable without a cell is said to have
  have hlev : ∀ x, Trail.levelOf { e.network.trail with cells := e.network.trail.cells.push {} } x =
      e.trail.levelOf x := fun x => by rw [Trail.levelOf, Trail.cellOf_push, Trail.levelOf]
  have hground : ∀ l ∈ e.trail, e.trail.levelOf l.var = 0 → l ∈ e.trail ∧
      Trail.levelOf { e.network.trail with cells := e.network.trail.cells.push {} } l.var = 0 :=
    fun l hl h0 => ⟨hl, (hlev l.var).trans h0⟩
  have hpush : e.network.trail.varCount + 1 =
      Trail.varCount { e.network.trail with cells := e.network.trail.cells.push {} } := by
    simp [Trail.varCount]
  refine ⟨⟨?_, ⟨hf.sound.stored, fun w hw l hl h0 => ?_⟩, hf.units, hf.listed, ?_,
      Marks.clean_insert hf.clean _, ?_⟩, .of_grown rfl ?_ ⟨List.prefix_rfl, List.prefix_rfl,
        Nat.le_refl _, fun _ _ c hc => ⟨c, hc, .refl c⟩, fun _ c hc _ => ⟨c, hc, .refl c⟩⟩ hground,
    hu, hpush.symm, hdec, rfl, id, fun hp l hl => ?_, fun hw => hw.newVar _⟩
  · exact (hf.sane.newVar _).dead_mono (fun l hl => ⟨hl.1, hl.2.1, (hlev l.var).trans hl.2.2⟩)
      fun l hl => hl.2.1
  · exact hf.sound.ground w hw l hl ((hlev l.var).symm.trans h0)
  · exact hready.mono fun x hx => hu ▸ Trail.free_push hx
  · rw [trail, ← hpush, hu]
    exact hf.marked.insert_succ _
  · exact Nat.le_trans (Nat.le_succ _) (Nat.le_of_eq hpush)
  · obtain ⟨hm, h0⟩ := hp l hl
    exact hground l hm h0

/-- A new variable leaves an engine in order. -/
theorem orderly_of_newVar (hf : e.Fit R) (ho : e.Orderly)
    (h : e.newVar negated decision = .ok (v, e')) : e'.Orderly := by
  have hn := newVar_of_newVar hf h
  simp only [newVar, bind_eq_ok, pure_eq_ok, Prod.mk.injEq] at h
  obtain ⟨⟨u, t⟩, ht, d, hd, rfl, rfl⟩ := h
  refine ⟨?_, ho.stored, ho.tallied, fun x => ?_⟩
  · rw [hn.var]
    exact ho.tended.addVar hn.varCount
  · rw [hn.decides, hn.varCount]
    split
    next hx =>
        rw [hx, hn.var]
        exact iff_of_true rfl (Nat.lt_succ_self _)
    next hx =>
        rw [ho.known x]
        refine ⟨Nat.lt_succ_of_lt, fun hlt => ?_⟩
        by_contra hge
        have heq : x.index = e.trail.varCount := by omega
        exact hx (hn.var ▸ congrArg Var.mk heq)

/-- An engine at rest stays at rest, with the same problem. -/
theorem NewVar.resting (hr : e.Resting good) (h : NewVar e.Problem decision e v e') :
    e'.Resting good :=
  ⟨h.fit.anti h.evolves.problem, h.level.trans hr.ground, h.idle hr.idle, h.placed hr.placed,
    fun hg => h.watching (hr.watching hg)⟩

end Engine

end CardSat
