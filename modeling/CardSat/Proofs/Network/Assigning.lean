import CardSat.Proofs.Network

set_option autoImplicit false

/-! # Assigning and opening levels

Besides propagation a literal becomes true as a decision, as a fact, or as what a learnt clause
forces. A literal of the ground level has to hold in the worlds of interest; a forced one has to be
explained.

This file has what the invariants need for one such assignment, for opening a level and for taking
everything back. It also says what a conflict at the ground level means: a constraint is violated by
literals that all hold, so no world of interest is left.
-/

namespace CardSat

namespace Network

variable {n : Network} {dead dead' : Lit → Prop} {line : Lit → List Watcher}
  {due : Handle → Lit → Prop} {R R' : World → Prop} {l : Lit} {r : Option Handle} {t : Trail}

/-! ## Weaker and stronger promises -/

/-- More literals may be dead, if they are false: less is promised of their lines. -/
theorem Sane.dead_mono (hs : n.Sane dead line) (hsub : ∀ l, dead l → dead' l)
    (hfalse : ∀ l, dead' l → l.neg ∈ n.trail) : n.Sane dead' line where
  trail := hs.trail
  queued := hs.queued
  formed := hs.formed
  lines :=
    { count := hs.lines.count
      blocker := fun l x hx c hc b hb =>
        (hs.lines.blocker l x hx c hc b hb).imp_right (Or.imp_right (hsub b))
      issued := hs.lines.issued }
  reasons := hs.reasons
  dead_false := hfalse

/-- Soundness for fewer worlds. -/
theorem Sound.anti (hr : n.Sound R) (hsub : ∀ w, R' w → R w) : n.Sound R' :=
  ⟨fun w hw => hr.stored w (hsub w hw), fun w hw => hr.ground w (hsub w hw)⟩

/-- What counts is the assignment; the part of it that is propagated does not. -/
theorem Sound.of_trail (hr : n.Sound R) {n' : Network} (hstore : n'.store = n.store)
    (hmem : ∀ l ∈ n'.trail, n'.trail.levelOf l.var = 0 →
      l ∈ n.trail ∧ n.trail.levelOf l.var = 0) : n'.Sound R where
  stored := hstore ▸ hr.stored
  ground w hw l hl hlev := hr.ground w hw l (hmem l hl hlev).1 (hmem l hl hlev).2

/-! ## Assigning

One literal is added to the end of the trail, and nothing is propagated yet. -/

/-- The reason of the new literal, if it has one, explains it by the literals before. -/
theorem Sane.assign (hs : n.Sane dead line) (ha : n.trail.Assigned l r t)
    (hr : ∀ a, r = some a →
      ∃ c, n.store.get? a = some c ∧ c.Explains t n.trail.lits.toList l) :
    Sane { n with trail := t } dead line := by
  refine hs.extend (ha.valid hs.trail) (ha.queued hs.queued) (ha.extends hs.trail)
    fun i m a hi hle hra => ?_
  have hmt := (ha.extends hs.trail).not_mem_of_size_le (ha.valid hs.trail) hi hle
  obtain rfl := (ha.mem_iff.1 (List.mem_of_getElem? hi)).resolve_left hmt
  have htake : t.lits.toList.take i = n.trail.lits.toList := by
    have hlt := (List.getElem?_eq_some_iff.1 hi).1
    rw [ha.lits, List.length_append, Array.length_toList, List.length_singleton] at hlt
    rw [ha.lits, List.take_append_of_le_length (by simpa using Nat.le_of_lt_succ hlt),
      List.take_of_length_le (by simpa using hle)]
  rw [htake]
  exact hr a (ha.reasonOf_self ▸ hra)

/-- At the ground level, the new literal holds in the worlds of interest. -/
theorem Sound.assign (hr : n.Sound R) (hv : n.trail.Valid) (ha : n.trail.Assigned l r t)
    (hl : n.trail.level = 0 → ∀ w, R w → l.holds w = true) : Sound { n with trail := t } R where
  stored := hr.stored
  ground w hw m hm hlev := by
    rcases ha.mem_iff.1 hm with hm | rfl
    · refine hr.ground w hw m hm ?_
      rw [← ha.levelOf_of_mem hv hm]
      exact hlev
    · exact hl (ha.levelOf_self.symm.trans hlev) w hw

/-! ## Opening a level -/

/-- A level is opened where nothing waits, since what waits belongs to the last level. -/
theorem Sane.openLevel (hs : n.Sane dead line) (hh : n.trail.head = n.trail.lits.size) :
    Sane { n with trail := n.trail.openLevel } dead line where
  trail := Trail.valid_openLevel hs.trail
  queued := Trail.queued_openLevel hh
  formed := hs.formed
  lines := hs.lines
  reasons i m a hi ha := by
    obtain ⟨c, hc, he⟩ := hs.reasons i m a hi ha
    exact ⟨c, hc, he.keep (Trail.keeps_openLevel _ _)⟩
  dead_false := hs.dead_false

/-- Opening a level makes nothing due. -/
theorem Watching.openLevel (hw : n.Watching due) :
    Watching { n with trail := n.trail.openLevel } due := by
  intro a c hc key hk hdone
  exact (hw a c hc key hk hdone).imp_right fun hsup => hsup.keep (Trail.keeps_openLevel _ _)

/-! ## Taking everything back -/

/-- Taking everything back leaves no literals, and so no reasons. -/
theorem Sane.rewindAll (hs : n.Sane dead line) (hdead : ∀ l, ¬ dead l) :
    Sane { n with trail := n.trail.rewindAll.2 } dead line where
  trail := Trail.valid_rewindAll hs.trail
  queued := Nat.zero_le _
  formed a c hc := by
    rw [show n.trail.rewindAll.2.varCount = n.trail.varCount from Trail.varCount_rewindAll _]
    exact hs.formed a c hc
  lines := hs.lines
  reasons i m a hi := absurd (List.mem_of_getElem? hi) (Trail.not_mem_rewindAll _ _)
  dead_false l hl := absurd hl (hdead l)

/-! ## Conflicts at the ground level -/

/-- A violated constraint does not hold where the trail does. -/
theorem not_holds_of_falsified {c : Constraint} {k : Nat} {w : World} (hv : t.Valid)
    (hc : c.WellFormed k) (hf : c.Falsified t) (hw : ∀ l ∈ t, l.holds w = true) :
    c.holds w = false := by
  rw [← Bool.not_eq_true]
  intro hcw
  cases ha : c.isAtMost with
  | false =>
      rw [Constraint.holds_of_not_isAtMost ha, World.clauseHolds_iff] at hcw
      obtain ⟨l, hl, hlw⟩ := hcw
      have := hw _ (hf.clause ha l hl)
      rw [Lit.holds_neg, hlw] at this
      cases this
  | true =>
      obtain ⟨b, hb⟩ := Constraint.isAtMost_eq_true.1 ha
      obtain ⟨l, -, hlt, hlw⟩ := Constraint.exists_not_holds hc hb hcw (hf.atMost b hb)
      rw [hw l ((hv.truth_yes l).1 (of_decide_eq_true hlt))] at hlw
      cases hlw

/-- A constraint violated at the ground level leaves no world of interest. -/
theorem Sound.absurd_of_falsified (hr : n.Sound R) (hs : n.Sane dead line)
    (hground : n.trail.level = 0) {a : Handle} {c : Constraint} (hc : n.store.get? a = some c)
    (hf : c.Falsified n.trail) (w : World) : ¬ R w := by
  intro hw
  have hall : ∀ l ∈ n.trail, l.holds w = true := fun l hl =>
    hr.ground w hw l hl (by have := hs.trail.levelOf_le hl; omega)
  have := not_holds_of_falsified hs.trail (hs.formed a c hc) hf hall
  rw [hr.stored w hw a c hc] at this
  cases this

end Network

end CardSat
