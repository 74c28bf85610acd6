import CardSat.Propagation
import CardSat.Proofs.Constraint.Stability
import CardSat.Proofs.WatchIndex

set_option autoImplicit false

/-! # Invariants of the network

Three invariants of a store, a trail and a watch index, kept apart because they fail apart:

* `Network.Sane`: the parts fit together. Constraints are well formed, the watch index is exact, and
  the reason of every literal explains it.
* `Network.Watching`: no constraint is forgotten. Where a watched literal has been propagated, its
  constraint is supported, unless it is still `due` to be visited.
* `Network.Sound`: in the worlds of interest all constraints hold, and so do the literals of the
  ground level.

A conflict breaks `Watching` at the current level only (`WatchingBelow`), and going back to a lower
level restores it.

## How they are used

A step of the program rewrites a constraint, adds literals to the trail, or goes back. For each of
these there is a lemma for each invariant, which says what the step has to provide: the lines of the
index for `Sane`, the explanations of new literals for `Sane` and `Sound`, what is newly due for
`Watching`. The parameters make the invariants usable in the middle of a step. The index is given by
its lines, which may have a watcher in hand; `dead` literals are those for which no exact watches
are promised any more, since they are false at the ground level; `due` are the constraints whose
visit is still to come.
-/

namespace CardSat

namespace Network

/-- The parts of a network fit together; `line` gives the watchers of each literal, and the
`dead` literals are false for good. -/
structure Sane (n : Network) (dead : Lit → Prop) (line : Lit → List Watcher) : Prop where
  trail : n.trail.Valid
  queued : n.trail.Queued
  formed : ∀ h c, n.store.get? h = some c → c.WellFormed n.trail.varCount
  lines : Exact line n.store dead
  reasons : ∀ i m h, n.trail.lits.toList[i]? = some m → n.trail.reasonOf m.var = some h →
    ∃ c, n.store.get? h = some c ∧ c.Explains n.trail (n.trail.lits.toList.take i) m
  dead_false : ∀ b, dead b → b.neg ∈ n.trail

/-- The part of this that an analysis relies on: constraints are well formed, and the reason of
every literal is stored and explains it. -/
structure Justified (n : Network) : Prop where
  trail : n.trail.Valid
  formed : ∀ h c, n.store.get? h = some c → c.WellFormed n.trail.varCount
  reasons : ∀ i m h, n.trail.lits.toList[i]? = some m → n.trail.reasonOf m.var = some h →
    ∃ c, n.store.get? h = some c ∧ c.Explains n.trail (n.trail.lits.toList.take i) m

/-- A sane network is justified. -/
theorem Sane.justified {n : Network} {dead : Lit → Prop} {line : Lit → List Watcher}
    (h : n.Sane dead line) : n.Justified := ⟨h.trail, h.formed, h.reasons⟩

/-- Every constraint with a propagated key is supported under it, or due to be visited. -/
def Watching (n : Network) (due : Handle → Lit → Prop) : Prop :=
  ∀ h c, n.store.get? h = some c → ∀ key ∈ c.keys, key ∈ n.trail.done →
    due h key ∨ c.Supported n.trail key

/-- Every constraint with a true key below the current level is supported under it. -/
def WatchingBelow (n : Network) : Prop :=
  ∀ h c, n.store.get? h = some c → ∀ key ∈ c.keys, key ∈ n.trail →
    n.trail.levelOf key.var < n.trail.level → c.Supported n.trail key

/-- The constraint under a handle is violated, and the current level has a part in it. -/
def Conflict (n : Network) (h : Handle) : Prop :=
  ∃ c, n.store.get? h = some c ∧ c.Falsified n.trail ∧
    ∃ l ∈ c.lits.toList, (c.isAtMost = true → l ∈ n.trail) ∧
      n.trail.levelOf l.var = n.trail.level

/-- What is stored, and what is true at the ground level, holds in the worlds of `R`. -/
structure Sound (n : Network) (R : World → Prop) : Prop where
  stored : ∀ w, R w → ∀ h c, n.store.get? h = some c → c.holds w = true
  ground : ∀ w, R w → ∀ l ∈ n.trail, n.trail.levelOf l.var = 0 → l.holds w = true

/-- The reason of a literal has another literal of the same level, which calls the constraint up:
a true literal of an at-most constraint, or a false one of a clause. -/
def Prompted (n : Network) (m : Lit) : Prop :=
  ∃ a c, n.trail.reasonOf m.var = some a ∧ n.store.get? a = some c ∧ ∃ b ∈ c.lits.toList,
    b.var ≠ m.var ∧ n.trail.levelOf b.var = n.trail.levelOf m.var ∧
      (b ∈ n.trail ∨ c.isAtMost = false ∧ b.neg ∈ n.trail)

/-- A network that has drawn further conclusions on the same level: literals were added to the
trail, and constraints rearranged. A true literal stays at the head of its clause. -/
structure Advances (n n' : Network) : Prop where
  trail : n.trail.Extends n'.trail
  store : n.store.Same n'.store
  prompted : ∀ m ∈ n'.trail, m ∈ n.trail ∨ n'.Prompted m
  heads : ∀ a c, n.store.get? a = some c → c.isAtMost = false → ∃ c', n'.store.get? a = some c' ∧
    (c'.lits.toList.head? = c.lits.toList.head? ∨
      ∀ m, c.lits.toList.head? = some m → m ∉ n.trail)

/-- What prompted a literal stays on the trail. -/
theorem Prompted.of_same {n n' : Network} {m : Lit} (hp : n.Prompted m) (hm : m ∈ n.trail)
    (ht : n.trail.Extends n'.trail) (hs : n.store.Same n'.store) : n'.Prompted m := by
  obtain ⟨a, c, ha, hc, b, hb, hne, hlev, hbt⟩ := hp
  obtain ⟨c', hc', hsame⟩ := hs.forth a c hc
  have hblev : n'.trail.levelOf b.var = n.trail.levelOf b.var := by
    rcases hbt with hbt | ⟨-, hbt⟩
    · exact ht.levelOf hbt
    · exact ht.levelOf (l := b.neg) hbt
  refine ⟨a, c', (ht.reasonOf hm).trans ha, hc', b, hsame.mem_iff.2 hb, hne, ?_, ?_⟩
  · rw [hblev, hlev, ht.levelOf hm]
  · exact hbt.imp ht.mem fun ⟨hat, hbt⟩ => ⟨hsame.isAtMost_eq.trans hat, ht.mem hbt⟩

namespace Advances

variable {n n' n'' : Network}

/-- No conclusions. -/
theorem refl (n : Network) : n.Advances n :=
  ⟨.refl _, .refl _, fun _ => Or.inl, fun _ c hc _ => ⟨c, hc, Or.inl rfl⟩⟩

/-- Further conclusions. -/
theorem trans (h : n.Advances n') (h' : n'.Advances n'') : n.Advances n'' where
  trail := h.trail.trans h'.trail
  store := h.store.trans h'.store
  prompted m hm := by
    rcases h'.prompted m hm with hm' | hr
    · exact (h.prompted m hm').imp_right fun hp => hp.of_same hm' h'.trail h'.store
    · exact Or.inr hr
  heads a c hc ha := by
    obtain ⟨c', hc', hhead⟩ := h.heads a c hc ha
    obtain ⟨d, hd, hsame⟩ := h.store.forth a c hc
    obtain rfl := Option.some.inj (hc'.symm.trans hd)
    obtain ⟨c'', hc'', hhead'⟩ := h'.heads a c' hc' (hsame.isAtMost_eq.trans ha)
    refine ⟨c'', hc'', ?_⟩
    rcases hhead with heq | hno
    · rw [heq] at hhead'
      exact hhead'.imp_right fun hno m hm hmt => hno m hm (h.trail.mem hmt)
    · exact Or.inr hno

/-- A literal that was not there has a reason. -/
theorem forced (h : n.Advances n') :
    ∀ m ∈ n'.trail, m ∈ n.trail ∨ ∃ a, n'.trail.reasonOf m.var = some a :=
  fun m hm => (h.prompted m hm).imp_right fun ⟨a, _, ha, _⟩ => ⟨a, ha⟩

/-- A constraint was rearranged, but no true literal has lost its place at the head of a clause. -/
theorem of_put {a : Handle} {c c' : Constraint} (hc : n.store.get? a = some c) (hs : c.Same c')
    (hhead : c.isAtMost = false → c'.lits.toList.head? = c.lits.toList.head? ∨
      ∀ m, c.lits.toList.head? = some m → m ∉ n.trail)
    (htrail : n'.trail = n.trail) (hstore : n'.store = n.store.put a c') : n.Advances n' where
  trail := htrail ▸ .refl _
  store := hstore ▸ .put hc hs
  prompted _ hm := Or.inl (htrail ▸ hm)
  heads b d hd hat := by
    rw [hstore]
    by_cases hba : b = a
    · subst hba
      obtain rfl := Option.some.inj (hc.symm.trans hd)
      exact ⟨c', by rw [Store.get?_put hc, if_pos rfl], hhead hat⟩
    · exact ⟨d, by rw [Store.get?_put hc, if_neg hba, hd], Or.inl rfl⟩

end Advances

variable {n n' : Network} {dead : Lit → Prop} {line line' : Lit → List Watcher}
  {due : Handle → Lit → Prop} {R : World → Prop}

/-! ## Rewriting a constraint -/

/-- A constraint may be rearranged if no true literal loses its place at the head of a clause: it
could be the literal that the clause explains. -/
theorem Sane.rewrite (h : n.Sane dead line) {a : Handle} {c c' : Constraint}
    (hc : n.store.get? a = some c) (hs : c.Same c')
    (hhead : c.isAtMost = false → c'.lits.toList.head? = c.lits.toList.head? ∨
      ∀ m, c.lits.toList.head? = some m → m ∉ n.trail)
    (htrail : n'.trail = n.trail) (hstore : n'.store = n.store.put a c')
    (hlines : Exact line' (n.store.put a c') dead) : n'.Sane dead line' where
  trail := htrail ▸ h.trail
  queued := htrail ▸ h.queued
  formed b d hd := by
    rw [hstore] at hd
    rw [htrail]
    obtain ⟨d₀, hd₀, hsame⟩ := (Store.Same.put hc hs).back b d hd
    exact hsame.wellFormed (h.formed b d₀ hd₀)
  lines := hstore ▸ hlines
  reasons i m b hi hb := by
    rw [htrail] at hi hb ⊢
    rw [hstore]
    obtain ⟨d, hd, he⟩ := h.reasons i m b hi hb
    by_cases hba : b = a
    · subst hba
      obtain rfl := Option.some.inj (hc.symm.trans hd)
      refine ⟨c', by rw [Store.get?_put hc, if_pos rfl], he.same hs fun ha => ?_⟩
      -- a reason keeps its first literal, for this is the one it forced
      rcases hhead ha with heq | hno
      · exact heq
      · exact absurd (List.mem_of_getElem? hi) (hno m (he.clause ha).1)
    · exact ⟨d, by rw [Store.get?_put hc, if_neg hba, hd], he⟩
  dead_false := htrail ▸ h.dead_false

/-- Rearranging a constraint does not change where it holds. -/
theorem Sound.rewrite (h : n.Sound R) {a : Handle} {c c' : Constraint}
    (hc : n.store.get? a = some c) (hs : c.Same c') (htrail : n'.trail = n.trail)
    (hstore : n'.store = n.store.put a c') : n'.Sound R where
  stored w hw := by
    rw [hstore]
    exact (Store.Same.put hc hs).holds (h.stored w hw)
  ground := htrail ▸ h.ground

/-! ## A longer trail -/

/-- The trail may get longer if every new reason explains its literal. -/
theorem Sane.extend (h : n.Sane dead line) {t : Trail} (hv : t.Valid) (hq : t.Queued)
    (he : n.trail.Extends t)
    (hnew : ∀ i m a, t.lits.toList[i]? = some m → n.trail.lits.size ≤ i →
      t.reasonOf m.var = some a →
      ∃ c, n.store.get? a = some c ∧ c.Explains t (t.lits.toList.take i) m) :
    Sane { n with trail := t } dead line where
  trail := hv
  queued := hq
  formed a c hc := he.varCount ▸ h.formed a c hc
  lines := h.lines
  reasons i m a hi ha := by
    by_cases hlt : n.trail.lits.size ≤ i
    · exact hnew i m a hi hlt ha
    · obtain ⟨s, hs⟩ := he.lits
      -- a literal that was there has the reason that it had
      have hi' : n.trail.lits.toList[i]? = some m := by
        have hi₂ : (n.trail.lits.toList ++ s)[i]? = some m := hs ▸ hi
        rwa [List.getElem?_append_left (by simpa using hlt)] at hi₂
      have hm := List.mem_of_getElem? hi'
      have ha' : n.trail.reasonOf m.var = some a := he.reasonOf hm ▸ ha
      obtain ⟨c, hc, hex⟩ := h.reasons i m a hi' ha'
      have htake : t.lits.toList.take i = n.trail.lits.toList.take i := he.take_eq (by omega)
      exact ⟨c, hc, htake ▸ hex.keep (he.keeps hm)⟩
  dead_false b hb := he.mem (h.dead_false b hb)

/-- Literals forced at the ground level hold where the constraints do. -/
theorem Sound.extend (h : n.Sound R) {t : Trail} (he : n.trail.Extends t)
    (hs : Sane { n with trail := t } dead line)
    (hnew : ∀ i m, t.lits.toList[i]? = some m → n.trail.lits.size ≤ i →
      ∃ a, t.reasonOf m.var = some a) : Sound { n with trail := t } R where
  stored := h.stored
  ground w hw := by
    suffices ∀ (i : Nat) (m : Lit), t.lits.toList[i]? = some m → t.levelOf m.var = 0 →
        m.holds w = true by
      intro l hl hlev
      obtain ⟨i, hi⟩ := List.mem_iff_getElem?.1 hl
      exact this i l hi hlev
    -- the literals before a literal of the ground level are of the ground level
    intro i
    induction i using Nat.strongRecOn with
    | ind i ih =>
        intro m hi hlev
        by_cases hlt : n.trail.lits.size ≤ i
        · obtain ⟨a, ha⟩ := hnew i m hi hlt
          obtain ⟨c, hc, hex⟩ := hs.reasons i m a hi ha
          refine hex.holds hs.trail (hs.formed a c hc) (fun l hl => List.mem_of_mem_take hl)
            (List.mem_of_getElem? hi) (h.stored w hw a c hc) ?_
          intro l hl
          obtain ⟨j, hj⟩ := List.mem_iff_getElem?.1 hl
          rw [List.getElem?_take] at hj
          split at hj
          next hji =>
              have hle := hs.trail.levelOf_mono (Nat.le_of_lt hji) hj hi
              exact ih j hji l hj (by
                have : t.levelOf l.var ≤ t.levelOf m.var := hle
                omega)
          next => cases hj
        · obtain ⟨s, hsx⟩ := he.lits
          have hm : m ∈ n.trail := by
            have hi₂ : (n.trail.lits.toList ++ s)[i]? = some m := hsx ▸ hi
            rw [List.getElem?_append_left (by simpa using hlt)] at hi₂
            exact List.mem_of_getElem? hi₂
          exact h.ground w hw m hm (he.levelOf hm ▸ hlev)

/-- A literal that waits is not propagated yet, so nothing more is due. -/
theorem Watching.extend (h : n.Watching due) {t : Trail} (hv : n.trail.Valid)
    (he : n.trail.Extends t) (hh : t.head = n.trail.head) :
    Watching { n with trail := t } due := by
  intro a c hc key hk hdone
  have hdone' : key ∈ n.trail.done := he.done_eq hv hh ▸ hdone
  rcases h a c hc key hk hdone' with hdue | hsup
  · exact Or.inl hdue
  · exact Or.inr (hsup.keep (he.keeps (List.mem_of_mem_take hdone')))

/-- A network that may forget everything. -/
theorem watching_all (n : Network) : n.Watching fun _ _ => True :=
  fun _ _ _ _ _ _ => Or.inl trivial

/-- What is due may be described otherwise. -/
theorem Watching.mono (h : n.Watching due) {due' : Handle → Lit → Prop}
    (hsub : ∀ a c, n.store.get? a = some c → ∀ key ∈ c.keys, key ∈ n.trail.done → due a key →
      due' a key ∨ c.Supported n.trail key) : n.Watching due' := by
  intro a c hc key hk hdone
  rcases h a c hc key hk hdone with hdue | hsup
  · exact hsub a c hc key hk hdone hdue
  · exact Or.inr hsup

/-! ## Below a conflict

A conflict ends a propagation in the middle of a line, so constraints are left that were not
visited. They are all under keys of the current level, which go away with it. -/

/-- If what is due concerns the current level only, nothing is forgotten below it. -/
theorem Watching.below (h : n.Watching due) (hv : n.trail.Valid) (hq : n.trail.Queued)
    (hdue : ∀ a key, due a key → n.trail.level ≤ n.trail.levelOf key.var) : n.WatchingBelow := by
  intro a c hc key hk hmem hlt
  rcases h a c hc key hk (hv.mem_done_of_levelOf_lt hq hmem hlt) with hd | hsup
  · have := hdue a key hd
    omega
  · exact hsup

/-- After going back below the current level nothing is forgotten. -/
theorem WatchingBelow.rewind (h : n.WatchingBelow) (hv : n.trail.Valid) {b : Nat}
    (hb : b < n.trail.level) :
    Watching { n with trail := (n.trail.rewind b).2 } fun _ _ => False := by
  intro a c hc key hk hdone
  have hmem : key ∈ (n.trail.rewind b).2 := List.mem_of_mem_take hdone
  obtain ⟨hmem', hle⟩ := (Trail.mem_rewind hv).1 hmem
  exact Or.inr ((h a c hc key hk hmem' (by omega)).keep (Trail.keeps_rewind hv hmem))

/-- Where nothing is forgotten, going back forgets nothing. -/
theorem Watching.rewind (h : n.Watching fun _ _ => False) (hv : n.trail.Valid)
    (hq : n.trail.Queued) (b : Nat) :
    Watching { n with trail := (n.trail.rewind b).2 } fun _ _ => False := by
  by_cases hb : b < n.trail.level
  · exact (h.below hv hq fun _ _ hdue => hdue.elim).rewind hv hb
  · rw [Trail.rewind_of_le hv (Nat.le_of_not_lt hb)]
    exact h

/-- Going back keeps the parts together, as long as dead literals are of the ground level. -/
theorem Sane.rewind (h : n.Sane dead line) (b : Nat)
    (hdead : ∀ l, dead l → n.trail.levelOf l.var = 0) :
    Sane { n with trail := (n.trail.rewind b).2 } dead line := by
  by_cases hb : b < n.trail.level
  case neg =>
    rw [Trail.rewind_of_le h.trail (Nat.le_of_not_lt hb)]
    exact h
  refine ⟨Trail.valid_rewind h.trail b, ?_, fun a c hc => ?_, h.lines, fun i m a hi ha => ?_,
    fun l hl => ?_⟩
  · have hh := Trail.head_rewind_of_lt h.trail h.queued hb
    exact Trail.queued_of_head (Trail.valid_rewind h.trail b) hh
  · rw [show (n.trail.rewind b).2.varCount = n.trail.varCount from Trail.varCount_rewind _ _]
    exact h.formed a c hc
  · have hm : m ∈ (n.trail.rewind b).2 := List.mem_of_getElem? hi
    have ha' : n.trail.reasonOf m.var = some a := Trail.reasonOf_rewind h.trail hm ▸ ha
    have hi₁ : (n.trail.rewind b).2.lits.toList[i]? = some m := hi
    rw [Trail.lits_rewind, List.getElem?_take] at hi₁
    split at hi₁
    next hlt =>
        obtain ⟨c, hc, he⟩ := h.reasons i m a hi₁ ha'
        refine ⟨c, hc, ?_⟩
        have htake : (n.trail.rewind b).2.lits.toList.take i = n.trail.lits.toList.take i := by
          rw [Trail.lits_rewind, List.take_take, Nat.min_eq_left (Nat.le_of_lt hlt)]
        simp only [htake]
        exact he.keep (Trail.keeps_rewind h.trail hm)
    next => cases hi₁
  · refine (Trail.mem_rewind h.trail).2 ⟨h.dead_false l hl, ?_⟩
    rw [Lit.neg_var, hdead l hl]
    exact Nat.zero_le b

/-- Going back keeps the literals of the ground level. -/
theorem Sound.rewind (h : n.Sound R) (hv : n.trail.Valid) (b : Nat) :
    Sound { n with trail := (n.trail.rewind b).2 } R where
  stored := h.stored
  ground w hw l hl hlev :=
    h.ground w hw l ((Trail.mem_rewind hv).1 hl).1 (Trail.levelOf_rewind n.trail b _ ▸ hlev)

end Network

end CardSat
