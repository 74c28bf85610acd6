import CardSat.Proofs.Network

set_option autoImplicit false

/-! # Storing a constraint

A new constraint is stored under a fresh handle and put on watch; it may come with new activities of
the learnt clauses (`Store.Relabels`), which matter to no invariant. `Network.Stores` says what
changes, and the lemmas on it say what the constraint has to satisfy for the invariants to survive.

Bumping a learnt clause may rescale the activities of all of them, so a store is relabelled often.
That the watched literals and the keys are read from the kind without the activity and from the
literals makes this a change that no invariant sees.

After a constraint is stored it is due to be visited under its keys, as nobody has looked at it
(`Watching.stores`). Who stores a clause knows why it need not be: its watched literals have no
value, or its first literal is assigned next.
-/

namespace CardSat

/-! ## New activities -/

/-- Only activities of learnt clauses differ. -/
structure Store.Relabels (s s' : Store) : Prop where
  size : s'.slots.size = s.slots.size
  forth : ∀ h c, s.get? h = some c →
    ∃ c', s'.get? h = some c' ∧ c'.kind.plain = c.kind.plain ∧ c'.lits = c.lits
  back : ∀ h c', s'.get? h = some c' →
    ∃ c, s.get? h = some c ∧ c'.kind.plain = c.kind.plain ∧ c'.lits = c.lits

namespace Store.Relabels

variable {s s' s'' : Store} {h : Handle} {c c' : Constraint}

/-- Nothing is relabelled. -/
theorem refl (s : Store) : s.Relabels s :=
  ⟨rfl, fun _ c hc => ⟨c, hc, rfl, rfl⟩, fun _ c hc => ⟨c, hc, rfl, rfl⟩⟩

/-- Relabelling again. -/
theorem trans (h : s.Relabels s') (h' : s'.Relabels s'') : s.Relabels s'' where
  size := h'.size.trans h.size
  forth a c hc := by
    obtain ⟨c', hc', hk, hl⟩ := h.forth a c hc
    obtain ⟨c'', hc'', hk', hl'⟩ := h'.forth a c' hc'
    exact ⟨c'', hc'', hk'.trans hk, hl'.trans hl⟩
  back a c'' hc'' := by
    obtain ⟨c', hc', hk', hl'⟩ := h'.back a c'' hc''
    obtain ⟨c, hc, hk, hl⟩ := h.back a c' hc'
    exact ⟨c, hc, hk'.trans hk, hl'.trans hl⟩

/-- One activity is changed. -/
theorem put (hc : s.get? h = some c) (hk : c'.kind.plain = c.kind.plain) (hl : c'.lits = c.lits) :
    s.Relabels (s.put h c') where
  size := Store.size_put s h c'
  forth a d hd := by
    by_cases ha : a = h
    · subst ha
      obtain rfl := Option.some.inj (hc.symm.trans hd)
      exact ⟨c', by rw [Store.get?_put hc, if_pos rfl], hk, hl⟩
    · exact ⟨d, by rw [Store.get?_put hc, if_neg ha, hd], rfl, rfl⟩
  back a d hd := by
    rw [Store.get?_put hc] at hd
    split at hd
    next ha =>
        obtain rfl := Option.some.inj hd
        exact ⟨c, ha ▸ hc, hk, hl⟩
    next => exact ⟨d, hd, rfl, rfl⟩

/-- The constraints are the same. -/
theorem same (hr : s.Relabels s') : s.Same s' where
  size := hr.size
  forth a c hc := by
    obtain ⟨c', hc', hk, hl⟩ := hr.forth a c hc
    exact ⟨c', hc', .of_lits_eq hk hl⟩
  back a c' hc' := by
    obtain ⟨c, hc, hk, hl⟩ := hr.back a c' hc'
    exact ⟨c, hc, .of_lits_eq hk hl⟩

end Store.Relabels

/-- The activity does not matter for which literals are watched. -/
theorem Constraint.watchedLits_of_lits_eq {c c' : Constraint} (hk : c'.kind.plain = c.kind.plain)
    (hl : c'.lits = c.lits) : c'.watchedLits = c.watchedLits := by
  rw [watchedLits, (Same.of_lits_eq hk hl).watchers_eq, hl, watchedLits]

/-- The activity does not matter for the keys. -/
theorem Constraint.keys_of_lits_eq {c c' : Constraint} (hk : c'.kind.plain = c.kind.plain)
    (hl : c'.lits = c.lits) : c'.keys = c.keys := by
  rw [keys, (Same.of_lits_eq hk hl).isAtMost_eq, watchedLits_of_lits_eq hk hl, keys]

namespace Network

variable {n n' : Network} {dead : Lit → Prop} {line line' : Lit → List Watcher}
  {due : Handle → Lit → Prop} {R : World → Prop} {h : Handle} {c c' : Constraint}

/-- Reasons are as before. -/
theorem Sane.relabels (hs : n.Sane dead line) {store : Store} (hr : n.store.Relabels store) :
    Sane { n with store } dead line where
  trail := hs.trail
  queued := hs.queued
  formed a d hd := by
    obtain ⟨d₀, hd₀, hk, hl⟩ := hr.back a d hd
    exact (Constraint.Same.of_lits_eq hk hl).wellFormed (hs.formed a d₀ hd₀)
  lines :=
    { count := fun a d hd l => by
        obtain ⟨d₀, hd₀, hk, hl⟩ := hr.back a d hd
        rw [hs.lines.count a d₀ hd₀ l, Constraint.keys_of_lits_eq hk hl]
      blocker := fun l x hx d hd b hb => by
        obtain ⟨d₀, hd₀, hk, hl⟩ := hr.back x.handle d hd
        obtain ⟨ha, hm⟩ := hs.lines.blocker l x hx d₀ hd₀ b hb
        exact ⟨(Constraint.Same.of_lits_eq hk hl).isAtMost_eq.trans ha, by rwa [hl]⟩
      issued := fun l x hx => hr.size ▸ hs.lines.issued l x hx }
  reasons i m a hi ha := by
    obtain ⟨d, hd, he⟩ := hs.reasons i m a hi ha
    obtain ⟨d', hd', hk, hl⟩ := hr.forth a d hd
    exact ⟨d', hd', he.same (.of_lits_eq hk hl) fun _ => by rw [hl]⟩
  dead_false := hs.dead_false

/-- The constraints hold where they did. -/
theorem Sound.relabels (hr : n.Sound R) {store : Store} (hs : n.store.Relabels store) :
    Sound { n with store } R where
  stored w hw := hs.same.holds (hr.stored w hw)
  ground := hr.ground

/-- The constraints are supported as before. -/
theorem Watching.relabels (hw : n.Watching due) {store : Store} (hr : n.store.Relabels store) :
    Watching { n with store } due := by
  intro a d hd key hk hdone
  obtain ⟨d₀, hd₀, hkind, hl⟩ := hr.back a d hd
  rw [Constraint.keys_of_lits_eq hkind hl] at hk
  rcases hw a d₀ hd₀ key hk hdone with hdue | hsup
  · exact Or.inl hdue
  · exact Or.inr (hsup.same (.of_lits_eq hkind hl) fun _ l hl' => by
      rwa [Constraint.watchedLits_of_lits_eq hkind hl] at hl')

/-! ## A new constraint

Its handle is the next one, so nothing refers to it yet. -/

/-- The constraint `c` was stored under the fresh handle `h` and put on watch. -/
structure Stores (n n' : Network) (h : Handle) (c : Constraint) : Prop where
  fresh : h.index = n.store.slots.size
  size : n'.store.slots.size = n.store.slots.size + 1
  get? : ∀ a, n'.store.get? a = if a = h then some c else n.store.get? a
  trail : n'.trail = n.trail
  watchers : ∀ l, ∃ ws : List Watcher, n'.index.line l = n.index.line l ++ ws ∧
    (∀ x ∈ ws, x.handle = h ∧ ∀ b, x.blocker = some b → c.isAtMost = false ∧ b ∈ c.lits.toList) ∧
    ws.length = if l ∈ c.keys then 1 else 0

namespace Stores

variable (hst : n.Stores n' h c)
include hst

/-- The new constraint is found under its handle. -/
theorem get?_self : n'.store.get? h = some c := by rw [hst.get?, if_pos rfl]

/-- Nothing else is changed. -/
theorem get?_of_ne {a : Handle} (ha : a ≠ h) : n'.store.get? a = n.store.get? a := by
  rw [hst.get?, if_neg ha]

/-- Nothing was stored under the handle before. -/
theorem get?_fresh : n.store.get? h = none := by
  cases hc : n.store.get? h with
  | none => rfl
  | some d =>
      have := Store.lt_of_get? hc
      have := hst.fresh
      omega

/-- What was stored still is. -/
theorem get?_old {a : Handle} {d : Constraint} (hd : n.store.get? a = some d) :
    n'.store.get? a = some d := by
  rw [hst.get?_of_ne, hd]
  rintro rfl
  rw [hst.get?_fresh] at hd
  cases hd

/-- The new watchers are on the lines of the keys of the new constraint, and each of them names
it. -/
theorem exact (hx : Exact n.index.line n.store dead) : Exact n'.index.line n'.store dead where
  count a d hd l := by
    obtain ⟨ws, hline, hws, hlen⟩ := hst.watchers l
    rw [hline, List.countP_append]
    by_cases ha : a = h
    · subst ha
      obtain rfl := Option.some.inj (hst.get?_self.symm.trans hd)
      -- no old watcher bears the fresh handle
      have hold : (n.index.line l).countP (fun x => decide (x.handle = a)) = 0 := by
        rw [List.countP_eq_zero]
        intro x hxl hxa
        have := hx.issued l x hxl
        have heq : x.handle = a := by simpa using hxa
        rw [heq] at this
        have := hst.fresh
        omega
      rw [hold, List.countP_eq_length.2 fun x hxw => by simpa using (hws x hxw).1, hlen,
        Nat.zero_add]
    · have hnew : ws.countP (fun x => decide (x.handle = a)) = 0 := by
        rw [List.countP_eq_zero]
        intro x hxw hxa
        exact ha (((hws x hxw).1.symm.trans (by simpa using hxa)).symm)
      rw [hst.get?_of_ne ha] at hd
      rw [hnew, Nat.add_zero]
      exact hx.count a d hd l
  blocker l x hxl d hd b hb := by
    obtain ⟨ws, hline, hws, -⟩ := hst.watchers l
    rw [hline] at hxl
    rcases List.mem_append.1 hxl with hxl | hxl
    · have hne : x.handle ≠ h := by
        intro he
        have := hx.issued l x hxl
        rw [he] at this
        have := hst.fresh
        omega
      rw [hst.get?_of_ne hne] at hd
      exact hx.blocker l x hxl d hd b hb
    · obtain ⟨hh, hbl⟩ := hws x hxl
      rw [hh] at hd
      obtain rfl := Option.some.inj (hst.get?_self.symm.trans hd)
      exact ⟨(hbl b hb).1, Or.inl (hbl b hb).2⟩
  issued l x hxl := by
    obtain ⟨ws, hline, hws, -⟩ := hst.watchers l
    rw [hst.size]
    rw [hline] at hxl
    rcases List.mem_append.1 hxl with hxl | hxl
    · exact Nat.lt_succ_of_lt (hx.issued l x hxl)
    · rw [(hws x hxl).1, hst.fresh]
      exact Nat.lt_succ_self _

end Stores

/-- A well-formed constraint may be stored. -/
theorem Sane.stores (hs : n.Sane dead n.index.line) (hst : n.Stores n' h c)
    (hc : c.WellFormed n.trail.varCount) : n'.Sane dead n'.index.line where
  trail := hst.trail ▸ hs.trail
  queued := hst.trail ▸ hs.queued
  formed a d hd := by
    rw [hst.trail]
    rw [hst.get?] at hd
    split at hd
    next => exact Option.some.inj hd ▸ hc
    next => exact hs.formed a d hd
  lines := hst.exact hs.lines
  reasons i m a hi ha := by
    rw [hst.trail] at hi ha ⊢
    obtain ⟨d, hd, he⟩ := hs.reasons i m a hi ha
    exact ⟨d, hst.get?_old hd, he⟩
  dead_false := hst.trail ▸ hs.dead_false

/-- The new constraint has to hold in the worlds of interest. -/
theorem Sound.stores (hr : n.Sound R) (hst : n.Stores n' h c)
    (hc : ∀ w, R w → c.holds w = true) : n'.Sound R where
  stored w hw a d hd := by
    rw [hst.get?] at hd
    split at hd
    next => exact Option.some.inj hd ▸ hc w hw
    next => exact hr.stored w hw a d hd
  ground := hst.trail ▸ hr.ground

/-- The new constraint is due under all its keys. -/
theorem Watching.stores (hw : n.Watching due) (hst : n.Stores n' h c) :
    n'.Watching fun a key => due a key ∨ a = h := by
  intro a d hd key hk hdone
  rw [hst.trail] at hdone ⊢
  rw [hst.get?] at hd
  split at hd
  next ha => exact Or.inl (Or.inr ha)
  next =>
      rcases hw a d hd key hk hdone with hdue | hsup
      · exact Or.inl (Or.inl hdue)
      · exact Or.inr hsup

end Network

/-! ## Putting a constraint on watch

A clause gets two watchers, each with the other literal as its blocker. An at-most constraint gets
one on the line of each watched literal, without a blocker. -/

/-- The first two literals of a clause are the watched ones. -/
theorem Constraint.watchedLits_of_headPair {c : Constraint} {a b : Lit} (hat : c.isAtMost = false)
    (h : c.headPair = .ok (a, b)) : c.watchedLits = [a, b] := by
  simp only [headPair, bind_eq_ok, pure_eq_ok, fetch_eq_ok, Prod.mk.injEq] at h
  obtain ⟨a', ha, b', hb, rfl, rfl⟩ := h
  rw [← Array.getElem?_toList] at ha hb
  rw [watchedLits, watchers_clause hat]
  obtain ⟨ls, hls⟩ := List.head?_eq_some_iff.1 (List.head?_eq_getElem?.trans ha)
  rw [hls] at hb ⊢
  cases ls with
  | nil => simp at hb
  | cons x ls =>
      obtain rfl : x = b' := by simpa using hb
      rfl

namespace WatchIndex

variable {w w' : WatchIndex} {c : Constraint} {h : Handle}

/-- The watchers that a constraint has on the line of a literal, pushed one by one. -/
theorem line_foldlM_push {ls : List Lit} {blocker : Option Lit}
    (hf : ls.foldlM (fun w l => push w l ⟨h, blocker⟩) w = .ok w') (l : Lit) :
    w'.line l = w.line l ++ List.replicate (ls.count l) ⟨h, blocker⟩ := by
  induction ls generalizing w with
  | nil =>
      rw [List.foldlM_nil, pure_eq_ok] at hf
      simp [hf]
  | cons a ls ih =>
      rw [List.foldlM_cons, bind_eq_ok] at hf
      obtain ⟨w₁, hpush, hf⟩ := hf
      rw [ih hf, line_push hpush, List.count_cons]
      by_cases hla : l = a
      · subst hla
        rw [Function.update_self, if_pos (by simp), List.append_assoc, List.singleton_append,
          ← List.replicate_succ]
      · rw [Function.update_of_ne hla, if_neg (by simpa using Ne.symm hla), Nat.add_zero]

/-- The watchers of a clause of which `a` and `b` are the first two literals: each literal blocks
the watcher of the other. -/
def pairWatchers (h : Handle) (a b l : Lit) : List Watcher :=
  (if l = a.neg then [⟨h, some b⟩] else []) ++ if l = b.neg then [⟨h, some a⟩] else []

/-- What the lines of the two keys of a clause get. -/
theorem line_push_pair {w₁ : WatchIndex} {a b : Lit} (hab : a ≠ b)
    (h₁ : w.push a.neg ⟨h, some b⟩ = .ok w₁) (h₂ : w₁.push b.neg ⟨h, some a⟩ = .ok w') (l : Lit) :
    w'.line l = w.line l ++ pairWatchers h a b l := by
  have hne : a.neg ≠ b.neg := fun he => hab (by rw [← Lit.neg_neg a, he, Lit.neg_neg])
  rw [line_push h₂, line_push h₁, pairWatchers]
  by_cases hla : l = a.neg
  · subst hla
    rw [Function.update_of_ne hne, Function.update_self, if_pos rfl, if_neg hne, List.append_nil]
  · by_cases hlb : l = b.neg
    · subst hlb
      rw [Function.update_self, Function.update_of_ne hla, if_neg hla, if_pos rfl, List.nil_append]
    · rw [Function.update_of_ne hlb, Function.update_of_ne hla, if_neg hla, if_neg hlb,
        List.append_nil, List.append_nil]

/-- The watchers of a clause name it, and have one of its first two literals as a blocker. -/
theorem mem_pairWatchers {a b l : Lit} {x : Watcher} (hx : x ∈ pairWatchers h a b l) :
    x.handle = h ∧ (x.blocker = some b ∨ x.blocker = some a) := by
  rcases List.mem_append.1 hx with hx | hx
  · split at hx
    · obtain rfl := List.mem_singleton.1 hx
      exact ⟨rfl, Or.inl rfl⟩
    · cases hx
  · split at hx
    · obtain rfl := List.mem_singleton.1 hx
      exact ⟨rfl, Or.inr rfl⟩
    · cases hx

/-- There is one of them under each key and none elsewhere. -/
theorem length_pairWatchers {a b : Lit} (hab : a ≠ b) (l : Lit) :
    (pairWatchers h a b l).length = if l = a.neg ∨ l = b.neg then 1 else 0 := by
  have hne : a.neg ≠ b.neg := fun he => hab (by rw [← Lit.neg_neg a, he, Lit.neg_neg])
  rw [pairWatchers]
  by_cases hla : l = a.neg
  · subst hla
    simp [hne]
  · by_cases hlb : l = b.neg
    · subst hlb
      simp [hne.symm]
    · simp [hla, hlb]

/-- A constraint put on watch has one watcher under each of its keys. -/
theorem watch_eq_ok {n : Nat} (hc : c.WellFormed n) (hw : w.watch c h = .ok w') (l : Lit) :
    ∃ ws : List Watcher, w'.line l = w.line l ++ ws ∧
      (∀ x ∈ ws, x.handle = h ∧
        ∀ b, x.blocker = some b → c.isAtMost = false ∧ b ∈ c.lits.toList) ∧
      ws.length = if l ∈ c.keys then 1 else 0 := by
  simp only [watch] at hw
  split at hw
  next ha =>
      simp only [bind_eq_ok] at hw
      obtain ⟨ls, hls, hw⟩ := hw
      obtain rfl := Constraint.watched_eq_ok hls
      refine ⟨_, line_foldlM_push hw l, fun x hx => ?_, ?_⟩
      · rw [List.eq_of_mem_replicate hx]
        exact ⟨rfl, by simp⟩
      · rw [List.length_replicate, Constraint.keys_atMost ha]
        have hnd : c.watchedLits.Nodup := hc.nodup.sublist (List.take_sublist _ _)
        exact hnd.count
  next ha =>
      have ha' : c.isAtMost = false := by simpa using ha
      simp only [bind_eq_ok] at hw
      obtain ⟨⟨a, b⟩, hpair, w₁, hw₁, hw₂⟩ := hw
      have hwatched := Constraint.watchedLits_of_headPair ha' hpair
      have hmem : ∀ m ∈ [a, b], m ∈ c.lits.toList := fun m hm =>
        Constraint.mem_of_mem_watchedLits (hwatched ▸ hm)
      -- the first two literals are distinct, so each line gets one watcher
      have hab : a ≠ b := by
        have hnd : c.watchedLits.Nodup := hc.nodup.sublist (List.take_sublist _ _)
        rw [hwatched] at hnd
        simpa using hnd
      refine ⟨_, line_push_pair hab hw₁ hw₂ l, fun x hx => ?_, ?_⟩
      · obtain ⟨hh, hbl⟩ := mem_pairWatchers hx
        refine ⟨hh, fun m hm => ⟨ha', hmem m ?_⟩⟩
        rcases hbl with hbl | hbl
        · simp [Option.some.inj (hm.symm.trans hbl)]
        · simp [Option.some.inj (hm.symm.trans hbl)]
      · rw [length_pairWatchers hab, Constraint.keys_clause ha', hwatched]
        simp

/-- Only the kind and the literals of a constraint matter for its watchers. -/
theorem watch_congr {c c' : Constraint} (ha : c.isAtMost = false) (ha' : c'.isAtMost = false)
    (hl : c'.lits = c.lits) : w.watch c' h = w.watch c h := by
  simp only [watch, ha, ha', Bool.false_eq_true, if_false, Constraint.headPair, hl]

end WatchIndex

end CardSat
