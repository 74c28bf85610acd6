import CardSat.Proofs.Engine.Closure
import CardSat.Proofs.Engine.Loading
import CardSat.Proofs.Engine.Preserving

set_option autoImplicit false

/-! # Going back restores a state at rest

A snapshot that was taken at rest can always be loaded as long as it is preserved: nothing is
refused and no fact fails (`Engine.restored_of_preserves`). The trail of the saved state is what
shows it. It contains the facts, and at its fixpoint nothing that the constraints derive from the
facts can lead out of it.

The trail that comes of it contains exactly what is derivable from the facts with the constraints
that are left. It may be shorter than the one that was saved, where learnt clauses have been
removed.

## Why the replay can not fail

A replay fails at a fact that is false, or at a constraint that is violated. Neither can happen as
long as all that the replay has put on the trail is on the saved trail as well (`Confined`), since
the facts are on it and it violates nothing. And that stays so: what a constraint forces while the
trail is within the saved one is forced there, so it is on it, since the saved trail is at its
fixpoint.
-/

namespace CardSat

namespace Engine

variable {e e₀ e' : Engine} {R : World → Prop} {s : Snapshot} {b : Bool} {facts : List Lit}
  {t : Trail}

/-- An engine at the ground level that stays within the trail `t`: its constraints force nothing
there, and what it has assigned is derived from the facts. -/
structure Confined (t : Trail) (facts : List Lit) (e : Engine) : Prop where
  fit : e.Fit fun _ => False
  ground : e.trail.level = 0
  fixpoint : ∀ h c, e.store.get? h = some c → c.AtFixpoint t
  derivable : ∀ m ∈ e.trail, e.store.Derivable facts m

namespace Confined

/-- Every literal on the trail is on the saved one. -/
theorem mem (hc : e.Confined t facts) (hv : t.Valid) (hfacts : ∀ l ∈ facts, l ∈ t) :
    ∀ m ∈ e.trail, m ∈ t := fun m hm =>
  (hc.derivable m hm).mem hv hc.fit.sane.formed hc.fixpoint hfacts

/-- A fact of `t` cannot be false. -/
theorem tried {l : Lit} {t' : Trail} (hc : e.Confined t facts) (hv : t.Valid)
    (hfacts : ∀ l ∈ facts, l ∈ t) (hl : l ∈ facts) (h : e.trail.tryAssign l none = .ok (b, t')) :
    b = true ∧ Confined t facts { e with network := { e.network with trail := t' } } := by
  have ht := tried_of_tryAssign hc.fit hc.ground (fun _ => False.elim) h
  cases b with
  | false => exact absurd (hc.mem hv hfacts _ (ht.no rfl)) (hv.neg_not_mem (hfacts l hl))
  | true =>
      refine ⟨rfl, ht.reaches.fit, ht.ground, hc.fixpoint, fun m hm => ?_⟩
      rcases (ht.yes rfl m).1 hm with hm | rfl
      · exact hc.derivable m hm
      · exact .fact hl

/-- Propagation draws conclusions that `t` has already, so it finds no conflict. -/
theorem propagated {failed : Option Handle} (hc : e.Confined t facts) (hv : t.Valid)
    (hfacts : ∀ l ∈ facts, l ∈ t) (h : e.propagate = .ok (failed, e')) :
    failed = none ∧ e.store.Same e'.store ∧ e'.Confined t facts := by
  have hp : e.Propagated (fun _ => False) False failed e' :=
    propagated_of_propagate hc.fit False.elim h
  have hsame : e.store.Same e'.store := stored_of_propagate hc.fit h
  have hc' : e'.Confined t facts := by
    refine ⟨hp.reaches.fit, hp.longer.level_eq.trans hc.ground, fun a c' hc' => ?_, fun m hm => ?_⟩
    · obtain ⟨c, hget, hs⟩ := hsame.back a c' hc'
      exact (hc.fixpoint a c hget).same hs
    · refine Network.derivable_of_mem hp.reaches.fit.sane (fun m hm => ?_) hm
      refine (hp.forced m hm).imp_left fun hm => (hc.derivable m hm).of_stored fun a c hget => ?_
      obtain ⟨c', hget', hs⟩ := hsame.forth a c hget
      exact ⟨a, c', hget', hs⟩
  refine ⟨?_, hsame, hc'⟩
  cases failed with
  | none => rfl
  | some a =>
      -- what fails under a smaller trail fails under the fixpoint, where nothing does
      obtain ⟨⟨c, hget, hfalse, -⟩, -⟩ := hp.conflict a rfl
      have hfalse' := hfalse.of_subset hp.reaches.fit.sane.trail hv (hc'.mem hv hfacts)
      exact absurd hfalse' ((hc'.fixpoint a c hget).not_falsified hv)

/-- No fact fails in a replay within a trail that has the facts. -/
theorem replayed (hv : t.Valid) (hfacts : ∀ l ∈ facts, l ∈ t) :
    ∀ {rest : List Lit} {e : Engine}, e.Confined t facts → (∀ l ∈ rest, l ∈ facts) →
    replay rest e = .ok (b, e') → b = true ∧ e.store.Same e'.store ∧ e'.Confined t facts := by
  intro rest
  induction rest with
  | nil =>
      intro e hc _ h
      obtain ⟨rfl, rfl⟩ := Prod.mk.inj (pure_eq_ok.1 h)
      exact ⟨rfl, .refl _, hc⟩
  | cons l rest ih =>
      intro e hc hrest h
      have hl := hrest l List.mem_cons_self
      cases replay_cons_eq_ok.1 h with
      | refused htry =>
          obtain ⟨hno, -⟩ := hc.tried hv hfacts hl htry
          cases hno
      | failed htry hprop =>
          obtain ⟨hno, -⟩ := (hc.tried hv hfacts hl htry).2.propagated hv hfacts hprop
          cases hno
      | next htry hprop h =>
          obtain ⟨-, hsame, hc₁⟩ := (hc.tried hv hfacts hl htry).2.propagated hv hfacts hprop
          obtain ⟨hb, hsame', hc'⟩ := ih hc₁ (fun m hm => hrest m (List.mem_cons_of_mem l hm)) h
          exact ⟨hb, Store.Same.trans hsame hsame', hc'⟩

end Confined

/-! ## What was saved -/

/-- The facts and the given constraints of `e₀` are those of `e`, and no constraint of `e` is
new. -/
structure Retains (e₀ e : Engine) : Prop where
  given : e.database.given.toList = e₀.database.given.toList
  units : e.database.units.toList = e₀.database.units.toList
  /-- No given constraint is lost. -/
  stored : ∀ h ∈ e₀.database.given.toList, ∀ c, e₀.store.get? h = some c →
    ∃ c', e.store.get? h = some c' ∧ c.Same c'
  /-- No constraint is new. -/
  old : ∀ h c', e.store.get? h = some c' → ∃ c, e₀.store.get? h = some c ∧ c.Same c'

theorem Retains.same (h : Retains e₀ e) (hs : e.store.Same e'.store)
    (hd : e'.database = e.database) : Retains e₀ e' where
  given := by rw [hd, h.given]
  units := by rw [hd, h.units]
  stored a ha c hc := by
    obtain ⟨c₁, hc₁, hs₁⟩ := h.stored a ha c hc
    obtain ⟨c', hc', hs'⟩ := hs.forth a c₁ hc₁
    exact ⟨c', hc', hs₁.trans hs'⟩
  old a c' hc' := by
    obtain ⟨c₁, hc₁, hs₁⟩ := hs.back a c' hc'
    obtain ⟨c, hc, hs₀⟩ := h.old a c₁ hc₁
    exact ⟨c, hc, hs₀.trans hs₁⟩

/-- The restored problem is the saved one. -/
theorem Retains.problem_iff {w : World} (h : Retains e₀ e)
    (hi₀ : e₀.settings.incremental = true) (hi : e.settings.incremental = true) :
    e.Problem w ↔ e₀.Problem w := by
  rw [problem_iff_of_incremental hi, problem_iff_of_incremental hi₀, h.given, h.units]
  refine and_congr_left fun _ => ⟨fun hw a ha c hc => ?_, fun hw a ha c' hc' => ?_⟩
  · obtain ⟨c', hc', hsame⟩ := h.stored a ha c hc
    rw [← hsame.holds_eq]
    exact hw a ha c' hc'
  · obtain ⟨c, hc, hsame⟩ := h.old a c' hc'
    rw [hsame.holds_eq]
    exact hw a ha c hc

/-- Cutting back to a snapshot of everything leaves what was there. -/
theorem Preserves.retains (hp : Preserves s e₀ e) (hcut : Cut s e e')
    (hclauses : s.clauses = e₀.database.given.size) (hunits : s.units = e₀.database.units.size) :
    Retains e₀ e' := by
  have hgiven₀ : e₀.database.given.toList.take s.clauses = e₀.database.given.toList := by
    rw [hclauses, ← Array.length_toList, List.take_length]
  have hunits₀ : e₀.database.units.toList.take s.units = e₀.database.units.toList := by
    rw [hunits, ← Array.length_toList, List.take_length]
  refine ⟨by rw [hcut.given, hp.given, hgiven₀], by rw [hcut.units, hp.units, hunits₀],
    fun a ha c hc => ?_, fun a c' hc' => ?_⟩
  · have ha₀ : a ∈ e₀.database.given.toList.take s.clauses := hgiven₀.symm ▸ ha
    obtain ⟨c', hc', hs⟩ := hp.stored a ha₀ c hc
    exact ⟨c', hcut.stored a (hp.given.symm ▸ ha₀) c' hc', hs⟩
  · obtain ⟨hget, hsurvives⟩ := hcut.old a c' hc'
    exact hp.old a c' hget hsurvives

/-- An engine at rest is at the fixpoint of each constraint. -/
theorem Resting.atFixpoint {h : Handle} {c : Constraint} (hr : e.Resting True)
    (hc : e.store.get? h = some c) : c.AtFixpoint e.trail :=
  (hr.watching trivial).atFixpoint hr.fit.sane hr.idle hc

/-- At the fixpoint of the saved trail no constraint that is left forces anything. -/
theorem Retains.atFixpoint (h : Retains e₀ e) (h₀ : e₀.Resting True) :
    ∀ a c, e.store.get? a = some c → c.AtFixpoint e₀.trail := fun a c' hc' => by
  obtain ⟨c, hc, hs⟩ := h.old a c' hc'
  exact (h₀.atFixpoint hc).same hs

/-! ## Going back -/

/-- The state `e'` that going back from `e` makes of what was saved in `e₀`. -/
structure Restored (s : Snapshot) (e₀ e e' : Engine) : Prop extends Retains e₀ e' where
  resting : e'.Resting True
  orderly : e'.Orderly
  settings : e'.settings = e.settings
  varCount : e'.trail.varCount = s.vars
  /-- The trail is what the constraints that are left derive from the facts. -/
  mem_iff : ∀ l, l ∈ e'.trail ↔ e'.store.Derivable e'.database.units.toList l
  /-- It has no literal that the saved trail did not have. -/
  saved : ∀ l ∈ e'.trail, l ∈ e₀.trail

theorem Restored.report (h : Restored s e₀ e e') (event : Event) :
    Restored s e₀ e (e'.report event) :=
  { h with
    resting := (reaches_of_report h.resting.fit event).resting h.resting h.resting.ground
      h.resting.idle h.resting.watching
    orderly := ⟨h.orderly.tended, h.orderly.stored, h.orderly.tallied, h.orderly.known⟩ }

/-- A preserved snapshot can be loaded, and the state that was saved is restored. -/
theorem restored_of_preserves (hf : e.Fit R) (hi : e.settings.incremental = true)
    (hs : e.Restorable s) (ho : e.Orderly) (h₀ : e₀.Resting True)
    (hsnap : e₀.snapshot true = .ok s) (hp : Preserves s e₀ e) :
    ∃ e', e.rollback s = .ok (true, e') ∧ Restored s e₀ e e' := by
  obtain ⟨-, rfl⟩ := snapshot_eq_ok.1 hsnap
  have hv₀ := h₀.fit.sane.trail
  obtain ⟨e₁, hdiscard, ho₁⟩ := returns_of_discardSince hf hi hs ho
  obtain ⟨hcut, hf₁, hlits₁, hhead₁, hground₁⟩ := cut_of_discardSince hf hi hs hdiscard
  have hleft := hp.retains hcut rfl rfl
  have hfacts : ∀ l ∈ e₁.database.units.toList, l ∈ e₀.trail := fun l hl =>
    (h₀.placed l (hleft.units ▸ hl)).1
  have hnone : ∀ l, l ∉ e₁.trail := fun l hl => by
    simp [Trail.mem_def, hlits₁] at hl
  -- the replay stays within the saved trail, so the facts cannot fail
  have hc₁ : e₁.Confined e₀.trail e₁.database.units.toList :=
    ⟨hf₁.anti fun _ => False.elim, hground₁, hleft.atFixpoint h₀, fun m hm => absurd hm (hnone m)⟩
  obtain ⟨b, e', hreplay, ho'⟩ := returns_of_replay hc₁.fit hground₁ ho₁ fun l hl => by
    rw [hcut.varCount]
    exact hv₀.lt_varCount (hfacts l hl)
  obtain ⟨rfl, hsame, hc'⟩ := hc₁.replayed hv₀ hfacts (fun _ => id) hreplay
  have hroll : e.rollback _ = .ok (true, e') := bind_eq_ok.2 ⟨e₁, hdiscard, hreplay⟩
  have hidle₁ : e₁.Idle := by
    rw [Idle, hhead₁, hlits₁]
    rfl
  have hwatch₁ : e₁.Watching := fun a c _ key _ hdone =>
    absurd (List.mem_of_mem_take hdone) (hnone key)
  have hre := replayed_of_replay hc₁.fit hground₁ hidle₁ hwatch₁ (fun _ => False.elim) hreplay
  have hunits' : e'.database.units.toList = e₁.database.units.toList := by rw [hre.database]
  obtain ⟨_, hback⟩ := rolledBack_of_rollback hf hi hs hroll
  refine ⟨e', hroll, hleft.same hsame hre.database, hback.resting rfl, ho',
    hback.evolves.settings.trans hback.cut.settings, hback.varCount,
    fun l => ⟨fun hl => hunits'.symm ▸ hc'.derivable l hl, fun hl => ?_⟩, hc'.mem hv₀ hfacts⟩
  refine hl.mem hc'.fit.sane.trail hc'.fit.sane.formed (fun a c hc => ?_) fun m hm =>
    hre.placed rfl m (Or.inr (hunits' ▸ hm))
  exact (hre.watching rfl).atFixpoint hc'.fit.sane (hre.idle rfl) hc

end Engine

end CardSat
