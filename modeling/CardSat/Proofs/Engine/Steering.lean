import CardSat.Proofs.Engine.Implying
import CardSat.Proofs.Engine.Search
import CardSat.Proofs.Network.Attentive

set_option autoImplicit false

/-! # Searches that a caller directs

A caller who directs the search opens levels and takes them back in any order, and asserts what a
conflict has taught. The steps are those of a search, but nobody has to go back after a conflict, so
constraints may be forgotten above it. What is kept instead is said by `Engine.Steered`: the engine
is fit, every level begins with its decision, and the network is attentive.

An attentive network may forget a constraint only where a level was open when it was last
propagated. So at the ground level nothing is forgotten (`Steered.watching`), and a search that is
started there is one that can be trusted again.
-/

namespace CardSat

namespace Engine

variable {e e' e₀ : Engine} {R : World → Prop} {good good' : Prop} {l : Lit}

/-- A world of interest in which the decisions up to some level hold agrees with the trail up to
this level. -/
theorem Fit.holds_of_decisions (hf : e.Fit R) {w : World} (hw : R w) {k : Nat}
    (hd : ∀ d ∈ e.trail.decisions, e.trail.levelOf d.var ≤ k → d.holds w = true) :
    ∀ l ∈ e.trail, e.trail.levelOf l.var ≤ k → l.holds w = true := by
  refine hf.sane.holds_of_unforced (hf.sound.stored w hw) fun l hl hle hr => ?_
  rcases Nat.eq_zero_or_pos (e.trail.levelOf l.var) with hground | hpos
  · exact hf.sound.ground w hw l hl hground
  · exact hd l (Trail.mem_decisions.2 ⟨hl, hpos, hr⟩) hle

/-- A state to which a caller has directed a search that began in `e`. -/
structure Steered (R : World → Prop) (good : Prop) (e e' : Engine) : Prop where
  reaches : e.Reaches R e'
  led : e'.trail.Led
  attentive : good → e'.network.Attentive

/-- At the ground level a search may begin. -/
theorem steered_of_ground (hf : e.Fit R) (hground : e.trail.level = 0) (hw : good → e.Watching) :
    Steered R good e e :=
  ⟨.refl hf, Trail.led_of_ground hf.sane.trail hground, fun hg => Network.Watching.attentive (hw hg)⟩

namespace Steered

/-- A weaker condition is kept as well. -/
theorem mono (hs : Steered R good e₀ e) (h : good' → good) : Steered R good' e₀ e :=
  ⟨hs.reaches, hs.led, fun hg => hs.attentive (h hg)⟩

/-- The trail is valid. -/
theorem valid (hs : Steered R good e₀ e) : e.trail.Valid := hs.reaches.fit.sane.trail

/-- Unless a constraint is violated, nothing is forgotten. -/
theorem watching (hs : Steered R good e₀ e) (hg : good) (hno : ¬ e.Overlooks) : e.Watching :=
  (hs.attentive hg).watching hs.valid hno

/-- Activities, counters and reports do not matter. -/
theorem of_network (hs : Steered R good e₀ e) (hr : e.Reaches R e')
    (hn : e'.network = e.network) : Steered R good e₀ e' where
  reaches := hs.reaches.trans hr
  led := by
    rw [trail, hn]
    exact hs.led
  attentive hg := hn ▸ hs.attentive hg

end Steered

/-! ## Opening and closing levels -/

/-- A decision begins a level. -/
theorem steered_of_decideLit (hs : Steered R good e₀ e) (hidle : e.Idle)
    (h : e.decideLit l = .ok e') : Steered R good e₀ e' ∧ 0 < e'.trail.level := by
  obtain ⟨hr, ha, -⟩ := reaches_of_decideLit hs.reaches.fit hidle h
  have hn : e'.network = { e.network with trail := e'.trail } := by
    obtain ⟨t, -, rfl⟩ := decideLit_eq_ok.1 h
    rfl
  refine ⟨⟨hs.reaches.trans hr, hs.led.decide hs.valid ha, fun hg => ?_⟩, ?_⟩
  · rw [hn]
    exact ((hs.attentive hg).openLevel hs.valid).assign (Trail.valid_openLevel hs.valid) ha
  · rw [ha.level_eq, Trail.level_openLevel]
    exact Nat.succ_pos _

/-- Taking back levels is always allowed. -/
theorem steered_of_cancelUntil {b : Nat} (hs : Steered R good e₀ e)
    (h : e.cancelUntil b = .ok e') : Steered R good e₀ e' where
  reaches := hs.reaches.trans (reaches_of_cancelUntil hs.reaches.fit h)
  led := by
    rw [trail_of_cancelUntil h]
    exact hs.led.rewind hs.valid b
  attentive hg := by
    rw [network_of_cancelUntil h]
    exact (hs.attentive hg).rewind hs.valid hs.reaches.fit.sane.queued b

/-! ## Propagating -/

/-- Where nothing waits, a propagation does nothing. -/
theorem propagate_of_idle (hidle : e.Idle) : e.propagate = .ok (none, e) := by
  have hnone : e.network.trail.dequeue = none := by
    rw [Trail.dequeue, Option.map_eq_none_iff]
    exact Array.getElem?_eq_none (Nat.le_of_eq hidle.symm)
  have hn : e.network.propagate = .ok (none, e.network) := by
    rw [Network.propagate, Network.propagateWithin, hnone]
    rfl
  exact propagate_eq_ok.2 ⟨_, hn, rfl⟩

/-- A propagation leaves nothing waiting. If it fails, then at the ground level there is no world of
interest, and above it the violated constraint may be left standing. -/
theorem steered_of_propagate {failed : Option Handle} (hs : Steered R good e₀ e)
    (h : e.propagate = .ok (failed, e')) :
    e'.Idle ∧ e₀.Reaches R e' ∧ e'.trail.level = e.trail.level ∧
      (∀ a, failed = some a → e'.network.Conflict a ∧ (e.trail.level = 0 → ∀ w, ¬ R w)) ∧
      ((good → failed ≠ none → 0 < e.trail.level) → Steered R good e₀ e') := by
  have hf := hs.reaches.fit
  have hp : e.Propagated R False failed e' := propagated_of_propagate hf False.elim h
  have hr := hs.reaches.trans hp.reaches
  refine ⟨hp.idle, hr, hp.longer.level_eq, fun a ha => ?_, fun hpos => ⟨hr, ?_, fun hg => ?_⟩⟩
  · subst ha
    exact ⟨(hp.conflict a rfl).1, fun hground => hp.absurd (hp.longer.level_eq.trans hground)⟩
  · exact hs.led.extends hp.longer hp.reaches.fit.sane.trail hp.forced
  · obtain ⟨n, hn, rfl⟩ := propagate_eq_ok.1 h
    exact (hs.attentive hg).propagate hf.sane hf.sound hn (hpos hg)

/-! ## Learning -/

/-- An analysis changes activities only, and its lesson is right. -/
theorem steered_of_analyze {failed : Handle} {lesson : Lesson} (hs : Steered R good e₀ e)
    (hconf : e.network.Conflict failed) (h : e.analyze failed = .ok (lesson, e')) :
    Steered R good e₀ e' ∧ lesson.Right e.trail R ∧ e'.trail = e.trail := by
  obtain ⟨hr, hright, hrel, hn⟩ := reaches_of_analyze hs.reaches.fit hconf h
  have htrail : e'.trail = e.trail := by rw [trail, hn]
  refine ⟨⟨hs.reaches.trans hr, htrail ▸ hs.led, fun hg => ?_⟩, hright, htrail⟩
  rw [hn]
  exact (hs.attentive hg).relabels hs.valid hrel

/-- A fact is learnt at the ground level. -/
theorem steered_of_fact (hs : Steered R good e₀ e) (hR : ∀ w, R w → l.holds w = true)
    (hground : e.trail.level = 0) (h : e.learn l #[l] = .ok e') : Steered R good e₀ e' := by
  rw [learn_singleton] at h
  obtain ⟨hr, ha, hw, -⟩ := reaches_of_fact hs.reaches.fit hR hground h
  refine ⟨hs.reaches.trans hr, ?_, fun hg => ?_⟩
  · exact Trail.led_of_ground hr.fit.sane.trail (ha.level_eq.trans hground)
  · exact Network.Watching.attentive
      (hw ((hs.attentive hg).watching_of_ground hs.valid hground))

/-- A clause is learnt where it forces its first literal. -/
theorem steered_of_learn {lits : Array Lit} (hs : Steered R good e₀ e)
    (hfc : Forcing e.trail l lits.toList) (hR : ∀ w, R w → w.clauseHolds lits.toList = true)
    (h : e.learn l lits = .ok e') : Steered R good e₀ e' := by
  obtain ⟨hr, ⟨a, ha⟩, hw, hkept⟩ := reaches_of_learn_clause hs.reaches.fit hfc hR h
  have hx := ha.extends hs.valid
  refine ⟨hs.reaches.trans hr, ?_, fun hg => ?_⟩
  · refine hs.led.extends hx hr.fit.sane.trail fun m hm => ?_
    rcases ha.mem_iff.1 hm with hm | rfl
    · exact Or.inl hm
    · exact Or.inr ⟨a, ha.reasonOf_self⟩
  · refine .step hs.valid hr.fit.sane.trail (hw _ (hs.attentive hg)) hkept
      (fun m hm => ⟨hx.mem hm, hx.levelOf hm⟩) fun m hm => ?_
    exact List.mem_of_mem_take (hx.done_eq hs.valid ha.head ▸ hm)

end Engine

end CardSat
