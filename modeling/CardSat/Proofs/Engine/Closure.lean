import CardSat.Proofs.Engine.Orderly
import CardSat.Proofs.Propagation.Derivable

set_option autoImplicit false

/-! # What propagation computes

An engine that is in order and watches its constraints is never refused to propagate, and what comes
of it is the closure of its trail under unit propagation (`Engine.closes_of_propagate`).

The closure is described without the watch lists. `Derivable` says which literals follow from those
on the trail by constraints that leave a literal no choice, one after another, and `Closes` says
that when propagation ends without a conflict the trail holds exactly these. One half is that
nothing is put on the trail but what is forced. The other half rests on the invariant of the watch
lists: with nothing left to propagate and nothing forgotten every constraint is at its fixpoint, so
a trail that is closed under the rules contains what is derivable.
-/

namespace CardSat

namespace Engine

variable {e e' : Engine} {R : World → Prop} {failed : Option Handle}

/-- Propagating `e` ends in `e'`, with a violated constraint or without one. -/
structure Closes (e : Engine) (failed : Option Handle) (e' : Engine) : Prop where
  /-- The constraints are the same, but for the order of their literals. -/
  stored : e.store.Same e'.store
  /-- Nothing is taken back. -/
  longer : e.trail.lits.toList <+: e'.trail.lits.toList
  /-- A new literal is forced by its reason and the literals before it, and follows from them. -/
  forced : ∀ i l, e.trail.lits.size ≤ i → e'.trail.lits[i]? = some l →
    ∃ h c, e'.trail.reasonOf l.var = some h ∧ e'.store.get? h = some c ∧
      c.Forces (e'.trail.lits.toList.take i) l ∧
      ∀ w : World, c.holds w = true →
        (∀ m ∈ e'.trail.lits.toList.take i, m.holds w = true) → l.holds w = true
  /-- A constraint that is reported is violated. -/
  violated : ∀ h, failed = some h → ∃ c, e'.store.get? h = some c ∧ c.Falsified e'.trail
  /-- Unless one is reported, no constraint forces anything more. -/
  fixpoint : failed = none → ∀ h c, e'.store.get? h = some c → c.AtFixpoint e'.trail
  /-- Then the trail is the closure of what it was. -/
  closure : failed = none → ∀ l, l ∈ e'.trail ↔ e'.store.Derivable e.trail.lits.toList l
  /-- Nothing is left to be propagated. -/
  idle : e'.Idle

/-- Propagation only rearranges constraints. -/
theorem stored_of_propagate (hf : e.Fit R)
    (h : e.propagate = .ok (failed, e')) : e.store.Same e'.store := by
  obtain ⟨n, hn, rfl⟩ := propagate_eq_ok.1 h
  have hp : Network.Propagated e.dead (fun _ => True) R e.network failed n ∧ _ :=
    Network.propagated_of_propagate hf.sane hf.sound (Network.watching_all _) hn
  exact hp.1.advances.store

/-- The literals that propagation adds are forced by their reasons. -/
theorem forced_of_propagated (hp : e.Propagated R True failed e') {i : Nat} {l : Lit}
    (hi : e.trail.lits.size ≤ i) (hl : e'.trail.lits[i]? = some l) :
    ∃ h c, e'.trail.reasonOf l.var = some h ∧ e'.store.get? h = some c ∧
      c.Forces (e'.trail.lits.toList.take i) l ∧
      ∀ w : World, c.holds w = true →
        (∀ m ∈ e'.trail.lits.toList.take i, m.holds w = true) → l.holds w = true := by
  have hs := hp.reaches.fit.sane
  have hpos : e'.trail.lits.toList[i]? = some l := by rw [Array.getElem?_toList, hl]
  have hmem : l ∈ e'.trail := List.mem_iff_getElem?.2 ⟨i, hpos⟩
  have hnew : l ∉ e.trail := hp.longer.not_mem_of_size_le hs.trail hpos hi
  obtain ⟨h, hreason⟩ := (hp.forced l hmem).resolve_left hnew
  obtain ⟨c, hc, hex⟩ := hs.reasons i l h hpos hreason
  have hforces : c.Forces (e'.trail.lits.toList.take i) l :=
    hex.to_forces hs.trail (fun m hm => List.mem_of_mem_take hm) hmem
  exact ⟨h, c, hreason, hc, hforces, fun w hw hb => hforces.holds (hs.formed h c hc) hw hb⟩

/-- Propagation is never refused, and it computes the closure. -/
theorem closes_of_propagate (hf : e.Fit R) (hw : e.Watching) (ho : e.Orderly) :
    ∃ failed e', e.propagate = .ok (failed, e') ∧ e.Closes failed e' := by
  obtain ⟨failed, e', hprop, -⟩ := returns_of_propagate hf ho
  have hp := propagated_of_propagate hf (fun _ : True => hw) hprop
  have hs := hp.reaches.fit.sane
  -- nothing is forgotten, so each constraint is at its fixpoint when nothing is left to propagate
  have hfix : failed = none → ∀ h c, e'.store.get? h = some c → c.AtFixpoint e'.trail :=
    fun hnone h c hc => (hp.watching hnone trivial).atFixpoint hs hp.idle hc
  refine ⟨failed, e', hprop, stored_of_propagate hf hprop, hp.longer.lits,
    fun i l => forced_of_propagated hp, fun h hfailed => ?_, hfix,
    fun hnone l => ⟨fun hl => ?_, fun hl => ?_⟩, hp.idle⟩
  · obtain ⟨c, hc, hfalse, -⟩ := (hp.conflict h hfailed).1
    exact ⟨c, hc, hfalse⟩
  · exact Network.derivable_of_mem hs (fun m hm => (hp.forced m hm).imp_left .fact) hl
  · exact hl.mem hs.trail hs.formed (hfix hnone) fun m hm => hp.longer.mem hm

end Engine

end CardSat
