import CardSat.Proofs.Propagation.AtMost

set_option autoImplicit false

/-! # Going through the watchers of one literal

While the line of a propagated literal `p` is gone through, its watchers are held apart from the
index: those that stay, followed by the `rest` that has not been visited. `Network.Scan` is the
invariant of this loop. It keeps the network sane and sound, and of the constraints under `p` only
those with a watcher in `rest` are due.

The lemmas here say which changes keep the invariant: dropping a watcher, rewriting a constraint,
moving a watch to another line, and forcing literals. A visit does one of them, or two, so that what
a visit does is assembled from them in `Proofs/Propagation/Visit`.

The lines are those of the index with the held watchers put in the place of `p`. That one function
describes both is what makes a watch that moves from `p` to `q` a change of two lines at once
(`move`).
-/

namespace CardSat

namespace Network

/-- The line of `p` is gone through: `held` are its watchers, of which `rest` is still to be
visited. A constraint may be forgotten under the keys that are `slack`. -/
structure Scan (dead : Lit → Prop) (slack : Lit → Prop) (R : World → Prop) (p : Lit)
    (held rest : List Watcher) (n : Network) : Prop where
  sane : n.Sane dead (Function.update n.index.line p held)
  taken : n.index.line p = []
  dequeued : p ∈ n.trail.done
  level : n.trail.levelOf p.var = n.trail.level
  sound : n.Sound R
  watching : n.Watching fun h key => slack key ∨ (key = p ∧ ∃ x ∈ rest, x.handle = h)

variable {dead : Lit → Prop} {slack : Lit → Prop} {R : World → Prop} {p : Lit}
  {held kept rest : List Watcher} {x y : Watcher} {n n' : Network} {c c' : Constraint}

namespace Scan

/-- The literal that is propagated is true. -/
theorem mem (hs : Scan dead slack R p held rest n) : p ∈ n.trail :=
  List.mem_of_mem_take hs.dequeued

/-- No literal is of a higher level than the one that is propagated. -/
theorem level_le (hs : Scan dead slack R p held rest n) {l : Lit} (hl : l ∈ n.trail) :
    n.trail.levelOf l.var ≤ n.trail.levelOf p.var := by
  rw [hs.level]
  exact hs.sane.trail.levelOf_le hl

/-- A held watcher stands under a key of its constraint. -/
theorem mem_keys (hs : Scan dead slack R p held rest n) (hx : x ∈ held)
    (hc : n.store.get? x.handle = some c) : p ∈ c.keys :=
  hs.sane.lines.mem_keys (by rwa [Function.update_self]) hc

/-- A watcher whose constraint is supported under `p` is no longer due. -/
theorem visited (hs : Scan dead slack R p held (x :: rest) n)
    (hsup : ∀ c, n.store.get? x.handle = some c → c.Supported n.trail p) :
    Scan dead slack R p held rest n :=
  { hs with
    watching := by
      refine hs.watching.mono ?_
      rintro a c hc key - - (hslack | ⟨rfl, y, hy, rfl⟩)
      · exact Or.inl (Or.inl hslack)
      · rcases List.mem_cons.1 hy with rfl | hy
        · exact Or.inr (hsup c hc)
        · exact Or.inl (Or.inr ⟨rfl, y, hy, rfl⟩) }

/-- The watcher of a freed constraint can be dropped. -/
theorem drop (hs : Scan dead slack R p (kept ++ x :: rest) (x :: rest) n)
    (hx : n.store.get? x.handle = none) : Scan dead slack R p (kept ++ rest) rest n := by
  have hs' : Scan dead slack R p (kept ++ x :: rest) rest n :=
    hs.visited fun c hc => by rw [hx] at hc; cases hc
  refine { hs' with sane := { hs.sane with lines := hs.sane.lines.of_lines ?_ ?_ } }
  · intro h c hc l
    have hne : x.handle ≠ h := by
      rintro rfl
      rw [hx] at hc
      cases hc
    by_cases hl : l = p
    · subst hl
      simp [List.countP_append, hne]
    · rw [Function.update_of_ne hl, Function.update_of_ne hl]
  · intro l y hy
    by_cases hl : l = p
    · subst hl
      rw [Function.update_self] at hy ⊢
      simp only [List.mem_append, List.mem_cons] at hy ⊢
      rcases hy with hy | hy
      · exact Or.inl hy
      · exact Or.inr (Or.inr hy)
    · rwa [Function.update_of_ne hl] at hy ⊢

/-- The constraint of a watcher may be rewritten with the same keys, and the watcher get
another blocker. -/
theorem rewrite (hs : Scan dead slack R p (kept ++ x :: rest) (x :: rest) n)
    (hc : n.store.get? x.handle = some c) (hsame : c.Same c')
    (hkeys : ∀ l, l ∈ c'.keys ↔ l ∈ c.keys)
    (hwatched : ∀ l, l ∈ c'.watchedLits ↔ l ∈ c.watchedLits)
    (hhead : c.isAtMost = false → c'.lits.toList.head? = c.lits.toList.head? ∨
      ∀ m, c.lits.toList.head? = some m → m ∉ n.trail)
    (hxy : y.handle = x.handle)
    (hy : ∀ b, y.blocker = some b → c.isAtMost = false ∧ b ∈ c.lits.toList) :
    Scan dead slack R p (kept ++ y :: rest) (x :: rest)
      { n with store := n.store.put x.handle c' } := by
  have hlines := hs.sane.lines.set_blocker (Function.update_self p _ n.index.line) hxy (by
    intro d hd b hb
    obtain rfl := Option.some.inj (hc.symm.trans hd)
    exact ⟨(hy b hb).1, Or.inl (hy b hb).2⟩)
  rw [Function.update_idem] at hlines
  refine ⟨hs.sane.rewrite hc hsame hhead rfl rfl (hlines.put hc hkeys hsame.isAtMost_eq
    fun _ b hb => Or.inl (hsame.mem_iff.2 hb)), hs.taken, hs.dequeued, hs.level,
    hs.sound.rewrite hc hsame rfl rfl, ?_⟩
  -- what the constraint owes is still owed, for the same literals are watched
  intro a d hd key hk hdone
  rw [Store.get?_put hc] at hd
  split at hd
  next ha =>
      obtain rfl := Option.some.inj hd
      subst ha
      rcases hs.watching _ c hc key ((hkeys key).1 hk) hdone with hdue | hsup
      · exact Or.inl hdue
      · exact Or.inr (hsup.same hsame fun _ l hl => (hwatched l).1 hl)
  next => exact hs.watching a d hd key hk hdone

/-- The watch of a constraint may move from `p` to a key `q` that is not true. -/
theorem move (hs : Scan dead slack R p (kept ++ x :: rest) (x :: rest) n) {q : Lit}
    (hc : n.store.get? x.handle = some c) (hsame : c.Same c')
    (hkeys : ∀ l, l ∈ c'.keys ↔ l = q ∨ l ∈ c.keys ∧ l ≠ p) (hq : q ∉ c.keys) (hqt : q ∉ n.trail)
    (hhead : c.isAtMost = false → c'.lits.toList.head? = c.lits.toList.head? ∨
      ∀ m, c.lits.toList.head? = some m → m ∉ n.trail)
    (hxy : y.handle = x.handle)
    (hy : ∀ b, y.blocker = some b → c.isAtMost = false ∧ b ∈ c.lits.toList)
    {index : WatchIndex} (hpush : n.index.push q y = .ok index) :
    Scan dead slack R p (kept ++ rest) rest
      { n with store := n.store.put x.handle c', index } := by
  have hqp : q ≠ p := by
    rintro rfl
    exact hqt hs.mem
  have hline := WatchIndex.line_push hpush
  have hmove := hs.sane.lines.move (Function.update_self p _ n.index.line) hqp hxy hc hkeys hq
    hsame.isAtMost_eq (fun b hb => hsame.mem_iff.2 hb) fun b hb =>
      ⟨hsame.isAtMost_eq.trans (hy b hb).1, hsame.mem_iff.2 (hy b hb).2⟩
  -- taking the watcher out of the line of `p` and adding it to that of `q` can be done in either
  -- order
  have hlines : Function.update (Function.update (Function.update n.index.line p
      (kept ++ x :: rest)) q (Function.update n.index.line p (kept ++ x :: rest) q ++ [y])) p
      (kept ++ rest) = Function.update index.line p (kept ++ rest) := by
    rw [hline, Function.update_of_ne hqp, Function.update_comm hqp, Function.update_idem]
    exact Function.update_comm hqp.symm _ _ _
  rw [hlines] at hmove
  refine ⟨hs.sane.rewrite hc hsame hhead rfl rfl hmove, ?_, hs.dequeued, hs.level,
    hs.sound.rewrite hc hsame rfl rfl, ?_⟩
  · simp only
    rw [hline, Function.update_of_ne hqp.symm]
    exact hs.taken
  · intro a d hd key hk hdone
    rw [Store.get?_put hc] at hd
    split at hd
    next ha =>
        obtain rfl := Option.some.inj hd
        subst ha
        rcases (hkeys key).1 hk with rfl | ⟨hkc, hkp⟩
        · exact absurd (List.mem_of_mem_take hdone) hqt
        · rcases hs.watching _ c hc key hkc hdone with (hslack | ⟨hkp', -⟩) | hsup
          · exact Or.inl (Or.inl hslack)
          · exact absurd hkp' hkp
          · refine Or.inr ⟨fun ha => ?_, fun ha => ?_⟩
            · obtain ⟨b, hb, hbt⟩ := hsup.clause (hsame.isAtMost_eq ▸ ha)
              exact ⟨b, hsame.mem_iff.2 hb, hbt⟩
            · -- an at-most constraint supported under another key has `p` false
              rw [hsame.isAtMost_eq] at ha
              have hpk := hs.mem_keys (x := x) (by simp) hc
              rw [Constraint.keys_atMost ha] at hpk
              have := (hsup.atMost ha p hpk (Ne.symm hkp)).1
              exact absurd this (hs.sane.trail.neg_not_mem hs.mem)
    next ha =>
        rcases hs.watching a d hd key hk hdone with (hslack | ⟨rfl, z, hz, rfl⟩) | hsup
        · exact Or.inl (Or.inl hslack)
        · rcases List.mem_cons.1 hz with rfl | hz
          · exact absurd rfl ha
          · exact Or.inl (Or.inr ⟨rfl, z, hz, rfl⟩)
        · exact Or.inr hsup

/-- A constraint may force literals. -/
theorem force (hs : Scan dead slack R p held rest n) {a : Handle} {t : Trail}
    (hc : n.store.get? a = some c) (hf : n.trail.Forced a t)
    (hex : ∀ i m, t.lits.toList[i]? = some m → n.trail.lits.size ≤ i →
      c.Explains t (t.lits.toList.take i) m) :
    Scan dead slack R p held rest { n with trail := t } := by
  have hsane := hs.sane.extend hf.valid hf.queued hf.longer (by
    intro i m b hi hle hb
    rw [(hf.new i m hi hle).1] at hb
    obtain rfl := Option.some.inj hb
    exact ⟨c, hc, hex i m hi hle⟩)
  refine ⟨hsane, hs.taken, ?_, ?_, hs.sound.extend hf.longer hsane fun i m hi hle =>
    ⟨a, (hf.new i m hi hle).1⟩, hs.watching.extend hs.sane.trail hf.longer hf.head⟩
  · have hd : t.done = n.trail.done := by
      rw [Trail.done, hf.head, hf.longer.take_eq hs.sane.trail.head_le, Trail.done]
    exact hd ▸ hs.dequeued
  · simp only
    rw [hf.longer.levelOf hs.mem, hf.longer.level_eq]
    exact hs.level

end Scan

end Network

end CardSat
