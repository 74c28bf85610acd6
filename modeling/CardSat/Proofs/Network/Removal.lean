import CardSat.Proofs.Network

set_option autoImplicit false

/-! # Removing and strengthening constraints

Two steps keep the invariants of a network: freeing a constraint that is nowhere a reason any more
(`Network.Frees`), and dropping false literals of a clause that is not satisfied
(`Network.Strengthens`).

`Network.Thinned` is what many such steps amount to: what is left of a constraint is at least as
strong, and a constraint that is gone was `gone` for a reason.

Both steps leave the watch index alone. The watchers of a freed constraint are cleaned up later, and
a strengthened clause keeps its first two literals, which are the watched ones. What may become
wrong is a blocker: it could be a literal that was dropped. It is false at the ground level then,
which makes it useless but harmless, and this is what `dead` literals are for.
-/

namespace CardSat

namespace Network

variable {n n' n'' : Network} {dead : Lit → Prop} {line : Lit → List Watcher}
  {due : Handle → Lit → Prop} {R : World → Prop} {h : Handle} {c c' : Constraint}

/-! ## Freeing

A freed handle is not given out again before the constraints that could name it are gone, so
watchers that still name it watch nothing. -/

/-- The constraint under `h` was freed, and is the reason of nothing. -/
structure Frees (n n' : Network) (h : Handle) : Prop where
  size : n'.store.slots.size = n.store.slots.size
  get? : ∀ a, n'.store.get? a = if a = h then none else n.store.get? a
  trail : n.trail.Cleared n'.trail
  reasons : ∀ m ∈ n'.trail, n'.trail.reasonOf m.var ≠ some h

/-- What is stored was stored before. -/
theorem Frees.of_get? (hf : n.Frees n' h) {a : Handle} {d : Constraint}
    (hd : n'.store.get? a = some d) : n.store.get? a = some d := by
  rw [hf.get?] at hd
  split at hd
  · cases hd
  · exact hd

/-- No reason is lost, and no watcher watches another constraint than before. -/
theorem Sane.frees (hs : n.Sane dead line) (hf : n.Frees n' h) : n'.Sane dead line where
  trail := hf.trail.valid hs.trail
  queued := hf.trail.queued hs.queued
  formed a d hd := hf.trail.varCount ▸ hs.formed a d (hf.of_get? hd)
  lines :=
    { count := fun a d hd l => hs.lines.count a d (hf.of_get? hd) l
      blocker := fun l x hx d hd => hs.lines.blocker l x hx d (hf.of_get? hd)
      issued := fun l x hx => hf.size ▸ hs.lines.issued l x hx }
  reasons i m a hi ha := by
    have hm : m ∈ n'.trail := List.mem_of_getElem? hi
    have hne : a ≠ h := by
      rintro rfl
      exact hf.reasons m hm ha
    have ha' : n.trail.reasonOf m.var = some a := by
      rcases hf.trail.reason m.var with heq | hnone
      · rw [← heq, ha]
      · rw [hnone] at ha
        cases ha
    have hi' : n.trail.lits.toList[i]? = some m := hf.trail.lits ▸ hi
    obtain ⟨d, hd, he⟩ := hs.reasons i m a hi' ha'
    refine ⟨d, by rw [hf.get?, if_neg hne, hd], ?_⟩
    rw [hf.trail.lits]
    exact he.keep (hf.trail.keeps m)
  dead_false b hb := hf.trail.mem_iff.2 (hs.dead_false b hb)

/-- Fewer constraints have to hold. -/
theorem Sound.frees (hr : n.Sound R) (hf : n.Frees n' h) : n'.Sound R where
  stored w hw a d hd := hr.stored w hw a d (hf.of_get? hd)
  ground w hw l hl hlev :=
    hr.ground w hw l (hf.trail.mem_iff.1 hl) (by rw [← hf.trail.level]; exact hlev)

/-- Fewer constraints have to be visited. -/
theorem Watching.frees (hw : n.Watching due) (hf : n.Frees n' h) : n'.Watching due := by
  intro a d hd key hk hdone
  have hdone' : key ∈ n.trail.done := hf.trail.done_eq ▸ hdone
  rcases hw a d (hf.of_get? hd) key hk hdone' with hdue | hsup
  · exact Or.inl hdue
  · exact Or.inr (hsup.keep (hf.trail.keeps key))

/-! ## Strengthening -/

/-- A clause that is not satisfied lost literals that are false at the ground level, but none
of the watched ones. -/
structure Strengthens (n n' : Network) (h : Handle) (c c' : Constraint) : Prop where
  stored : n.store.get? h = some c
  clause : c.isAtMost = false
  kind : c'.kind = c.kind
  watched : c'.watchedLits = c.watchedLits
  sub : ∀ l ∈ c'.lits.toList, l ∈ c.lits.toList
  lost : ∀ l ∈ c.lits.toList, l ∈ c'.lits.toList ∨ l.neg ∈ n.trail ∧ n.trail.levelOf l.var = 0
  distinct : (c'.lits.toList.map Lit.var).Nodup
  two_le : 2 ≤ c'.size
  open_ : ∀ l ∈ c.lits.toList, l ∉ n.trail
  trail : n'.trail = n.trail
  store : n'.store = n.store.put h c'

/-- The strengthened clause is a clause. -/
theorem Strengthens.isAtMost (hst : n.Strengthens n' h c c') : c'.isAtMost = false := by
  have := hst.clause
  unfold Constraint.isAtMost at this ⊢
  rw [hst.kind]
  exact this

/-- The strengthened clause is watched as before. -/
theorem Strengthens.keys (hst : n.Strengthens n' h c c') : c'.keys = c.keys := by
  rw [Constraint.keys_clause hst.isAtMost, Constraint.keys_clause hst.clause, hst.watched]

/-- The strengthened clause implies the old one, and follows from it at the ground level. -/
theorem Strengthens.holds (hst : n.Strengthens n' h c c') {w : World} (hw : c'.holds w = true) :
    c.holds w = true := by
  rw [Constraint.holds_of_not_isAtMost hst.isAtMost, World.clauseHolds_iff] at hw
  rw [Constraint.holds_of_not_isAtMost hst.clause, World.clauseHolds_iff]
  obtain ⟨l, hl, hlw⟩ := hw
  exact ⟨l, hst.sub l hl, hlw⟩

/-- Only the one clause has changed. -/
theorem Strengthens.get? (hst : n.Strengthens n' h c c') (a : Handle) :
    n'.store.get? a = if a = h then some c' else n.store.get? a := by
  rw [hst.store, Store.get?_put hst.stored]

/-- The blockers that are dropped are dead. -/
theorem Sane.strengthens (hs : n.Sane dead line) (hst : n.Strengthens n' h c c')
    (hdead : ∀ l, l.neg ∈ n.trail → n.trail.levelOf l.var = 0 → dead l) : n'.Sane dead line where
  trail := hst.trail ▸ hs.trail
  queued := hst.trail ▸ hs.queued
  formed a d hd := by
    rw [hst.trail]
    rw [hst.get?] at hd
    split at hd
    next =>
        obtain rfl := Option.some.inj hd
        refine ⟨hst.distinct, fun l hl => (hs.formed h c hst.stored).known l (hst.sub l hl),
          hst.two_le, fun k hk => absurd hk (Constraint.kind_ne_atMost hst.isAtMost k)⟩
    next => exact hs.formed a d hd
  lines := by
    rw [hst.store]
    refine hs.lines.put hst.stored (fun l => by rw [hst.keys])
      (hst.isAtMost.trans hst.clause.symm) fun _ b hb => ?_
    rcases hst.lost b hb with hb | ⟨hneg, hlev⟩
    · exact Or.inl hb
    · exact Or.inr (hdead b hneg hlev)
  reasons i m a hi ha := by
    rw [hst.trail] at hi ha ⊢
    obtain ⟨d, hd, he⟩ := hs.reasons i m a hi ha
    refine ⟨d, ?_, he⟩
    rw [hst.get?, if_neg, hd]
    -- a clause that is the reason of a literal is satisfied by it
    rintro rfl
    obtain rfl := Option.some.inj (hst.stored.symm.trans hd)
    have hm := List.mem_of_head? (he.clause hst.clause).1
    exact hst.open_ m hm (List.mem_of_getElem? hi)
  dead_false := hst.trail ▸ hs.dead_false

/-- In the worlds of interest the literals that were dropped are false, so what is left of the
clause holds. -/
theorem Sound.strengthens (hr : n.Sound R) (hst : n.Strengthens n' h c c') : n'.Sound R where
  stored w hw a d hd := by
    rw [hst.get?] at hd
    split at hd
    next =>
        obtain rfl := Option.some.inj hd
        have := hr.stored w hw h c hst.stored
        rw [Constraint.holds_of_not_isAtMost hst.clause, World.clauseHolds_iff] at this
        rw [Constraint.holds_of_not_isAtMost hst.isAtMost, World.clauseHolds_iff]
        obtain ⟨l, hl, hlw⟩ := this
        rcases hst.lost l hl with hl | ⟨hneg, hlev⟩
        · exact ⟨l, hl, hlw⟩
        · have := hr.ground w hw l.neg hneg hlev
          rw [Lit.holds_neg, hlw] at this
          cases this
    next => exact hr.stored w hw a d hd
  ground := hst.trail ▸ hr.ground

/-- A true literal that supports the clause was not dropped. -/
theorem Watching.strengthens (hw : n.Watching due) (hst : n.Strengthens n' h c c') :
    n'.Watching due := by
  intro a d hd key hk hdone
  rw [hst.trail] at hdone ⊢
  rw [hst.get?] at hd
  split at hd
  next ha =>
      obtain rfl := Option.some.inj hd
      rcases hw h c hst.stored key (hst.keys ▸ hk) hdone with hdue | hsup
      · exact Or.inl (ha ▸ hdue)
      · obtain ⟨b, hb, hbt, -⟩ := hsup.clause hst.clause
        exact absurd hbt (hst.open_ b hb)
  next => exact hw a d hd key hk hdone

/-! ## Many removals

What is known of the whole is stated without the order of the steps: for a constraint that is left,
what it was before, and for one that is gone, why. -/

/-- A network of which constraints were removed, and with `strengthened` others strengthened. -/
structure Thinned (n n' : Network) (strengthened : Prop) (gone : Handle → Constraint → Prop) :
    Prop where
  size : n'.store.slots.size = n.store.slots.size
  trail : n.trail.Cleared n'.trail
  index : n'.index.line = n.index.line
  left : ∀ a c', n'.store.get? a = some c' → ∃ c, n.store.get? a = some c ∧ c'.kind = c.kind ∧
    (∀ l ∈ c'.lits.toList, l ∈ c.lits.toList) ∧
    (∀ w, c'.holds w = true → c.holds w = true) ∧ (¬ strengthened → c' = c)
  gone : ∀ a c, n.store.get? a = some c → n'.store.get? a = none → gone a c

namespace Thinned

variable {strengthened : Prop} {gone : Handle → Constraint → Prop}

/-- Nothing was removed. -/
theorem refl (n : Network) : n.Thinned n strengthened gone where
  size := rfl
  trail := .refl _
  index := rfl
  left _ c hc := ⟨c, hc, rfl, fun _ => id, fun _ => id, fun _ => rfl⟩
  gone a c hc hno := by rw [hc] at hno; cases hno

/-- Removing more. -/
theorem trans (h : n.Thinned n' strengthened gone) (h' : n'.Thinned n'' strengthened gone)
    (hup : ∀ a c c', c'.kind = c.kind → (∀ w, c'.holds w = true → c.holds w = true) →
      gone a c' → gone a c) :
    n.Thinned n'' strengthened gone where
  size := h'.size.trans h.size
  trail := h.trail.trans h'.trail
  index := h'.index.trans h.index
  left a c'' hc'' := by
    obtain ⟨c', hc', hk', hs', hh', he'⟩ := h'.left a c'' hc''
    obtain ⟨c, hc, hk, hs, hh, he⟩ := h.left a c' hc'
    exact ⟨c, hc, hk'.trans hk, fun l hl => hs l (hs' l hl), fun w hw => hh w (hh' w hw),
      fun hno => (he' hno).trans (he hno)⟩
  gone a c hc hno := by
    cases hc' : n'.store.get? a with
    | none => exact h.gone a c hc hc'
    | some c' =>
        obtain ⟨d, hd, hk, -, hh, -⟩ := h.left a c' hc'
        obtain rfl := Option.some.inj (hc.symm.trans hd)
        exact hup a c c' hk hh (h'.gone a c' hc' hno)

end Thinned

end Network

end CardSat
