import CardSat.Proofs.Propagation.Scan

set_option autoImplicit false

/-! # One visit

A visit to a watcher keeps the invariant of the scan (`visited_of_visit`): a watcher that stays or
leaves is no longer due, and a failing one leaves a `Conflict`.

An at-most constraint is visited in two steps, one that finds the change to be made and one that
makes it; that the change is right was proved before. A clause is first turned so that its second
literal is the complement of `p` (`Turned`), and the rest of the visit depends on its first literal.
This rest is a function of its own here (`settleClause`), with one lemma for each of its ends: the
first literal is true, another literal takes over the watch, the clause fails, or it forces its
first literal. What these lemmas have in common is the structure `Settles`, the state after the
clause was turned.
-/

namespace CardSat

namespace Network

variable {dead : Lit → Prop} {slack : Lit → Prop} {R : World → Prop} {p : Lit}
  {kept rest : List Watcher} {x : Watcher} {n n' : Network} {c c' : Constraint} {v : Visit}

/-- What a visit to the watcher `x` leaves behind. -/
def Visited (dead : Lit → Prop) (slack : Lit → Prop) (R : World → Prop) (p : Lit)
    (kept : List Watcher) (x : Watcher) (rest : List Watcher) (n : Network) : Visit → Prop
  | .stay y => Scan dead slack R p (kept ++ y :: rest) rest n
  | .leave => Scan dead slack R p (kept ++ rest) rest n
  | .fail y => y.handle = x.handle ∧ Scan dead slack R p (kept ++ y :: rest) (x :: rest) n ∧
      n.Conflict x.handle

/-- Literals were forced by one constraint, which `p` has called up on the current level. -/
theorem Advances.of_forced {n n₁ n' : Network} {a : Handle} {b : Lit} (h : n.Advances n₁)
    (hf : n₁.trail.Forced a n'.trail) (hstore : n'.store = n₁.store) (hc : n₁.store.get? a = some c)
    (hb : b ∈ c.lits.toList) (hblev : n₁.trail.levelOf b.var = n₁.trail.level)
    (hbt : b ∈ n₁.trail ∨ c.isAtMost = false ∧ b.neg ∈ n₁.trail) : n.Advances n' := by
  refine h.trans ⟨hf.longer, hstore ▸ .refl _, fun m hm => ?_, fun _ d hd _ =>
    ⟨d, hstore ▸ hd, Or.inl rfl⟩⟩
  obtain ⟨i, hi⟩ := List.mem_iff_getElem?.1 hm
  -- a literal behind the end of the trail was put there now
  by_cases hle : n₁.trail.lits.size ≤ i
  · have hbv : ∃ x ∈ n₁.trail, x.var = b.var := by
      rcases hbt with hbt | ⟨-, hbt⟩
      · exact ⟨b, hbt, rfl⟩
      · exact ⟨b.neg, hbt, rfl⟩
    obtain ⟨x, hx, hxb⟩ := hbv
    obtain ⟨hreason, hlev⟩ := hf.new i m hi hle
    refine Or.inr ⟨a, c, hreason, hstore ▸ hc, b, hb, fun heq => ?_, ?_,
      hbt.imp hf.longer.mem (And.imp_right hf.longer.mem)⟩
    · have hxm := hf.valid.eq_of_var_eq (hf.longer.mem hx) hm (hxb.trans heq)
      exact hf.longer.not_mem_of_size_le hf.valid hi hle (hxm ▸ hx)
    · rw [← hxb, hf.longer.levelOf hx, hxb, hblev, hlev]
  · refine Or.inl (List.mem_of_mem_take (i := n₁.trail.lits.size) ?_)
    rw [← hf.longer.take_eq (Nat.le_refl _)]
    exact List.mem_iff_getElem?.2 ⟨i, by rw [List.getElem?_take, if_pos (by omega), hi]⟩

/-- A visit draws conclusions only, and propagates nothing further. -/
structure Moves (n n' : Network) : Prop extends n.Advances n' where
  head : n'.trail.head = n.trail.head

/-- Nothing happens. -/
theorem Moves.refl (n : Network) : n.Moves n := ⟨.refl n, rfl⟩

/-- One thing after the other. -/
theorem Moves.trans {n n' n'' : Network} (h : n.Moves n') (h' : n'.Moves n'') : n.Moves n'' :=
  ⟨h.toAdvances.trans h'.toAdvances, h'.head.trans h.head⟩

/-! ## At-most constraints -/

/-- Once the bound is reached, the literals it forces are explained. -/
theorem explains_of_force {t t' : Trail} {k : Nat} (hc : c.WellFormed t.varCount)
    (hk : c.kind = .atMost k) (hp : p ∈ c.watchedLits) (hpt : p ∈ t)
    (hun : ∀ l ∈ c.lits.toList.drop c.watchers, l ∈ t) {a : Handle} (hf : t.Forced a t')
    (hneg : ∀ l ∈ c.watchedLits, l ≠ p → l.neg ∈ t')
    (hnew : ∀ m ∈ t', m ∈ t ∨ m.neg ∈ c.watchedLits ∧ m.neg ≠ p) {i : Nat} {m : Lit}
    (hi : t'.lits.toList[i]? = some m) (hle : t.lits.size ≤ i) :
    c.Explains t' (t'.lits.toList.take i) m := by
  have hbefore : ∀ l ∈ t, l ∈ t'.lits.toList.take i := fun l hl => hf.longer.mem_take hl hle
  have hm : m ∈ t' := List.mem_of_getElem? hi
  have hmlev := (hf.new i m hi hle).2
  have hmt : m ∉ t := hf.longer.not_mem_of_size_le hf.valid hi hle
  refine ⟨fun ha => absurd hk (Constraint.kind_ne_atMost ha k), fun k' hk' => ?_⟩
  obtain rfl : k = k' := Kind.atMost.inj (hk.symm.trans hk')
  obtain ⟨hmc, hmp⟩ := (hnew m hm).resolve_left hmt
  refine ⟨Constraint.mem_of_mem_watchedLits hmc, ?_, fun l hl => ?_⟩
  · -- of the watched literals only `p` is true, and all the others are
    have hwk := hc.watchers_atMost hk
    have hwle := hc.watchers_le
    have hsplit := List.take_append_drop c.watchers c.lits.toList
    rw [← hsplit, List.countP_append]
    have hdrop : (c.lits.toList.drop c.watchers).countP
        (fun l => decide (l ∈ t'.lits.toList.take i)) = c.size - c.watchers := by
      rw [List.countP_eq_length.2 fun l hl => by simpa using hbefore l (hun l hl),
        List.length_drop, Array.length_toList, Constraint.size]
    have htake : (c.lits.toList.take c.watchers).countP
        (fun l => decide (l ∈ t'.lits.toList.take i)) = 1 := by
      have hcongr : (c.lits.toList.take c.watchers).countP
          (fun l => decide (l ∈ t'.lits.toList.take i)) = c.watchedLits.count p := by
        rw [List.count, Constraint.watchedLits]
        refine List.countP_congr fun l hl => ?_
        by_cases hlp : l = p
        · subst hlp
          simpa using hbefore l hpt
        · have hln := hneg l hl hlp
          have : l ∉ t'.lits.toList.take i := fun hlb =>
            hf.valid.neg_not_mem (List.mem_of_mem_take hlb) hln
          simp [this, hlp]
      rw [hcongr]
      exact List.count_eq_one_of_mem (hc.nodup.sublist (List.take_sublist _ _)) hp
    rw [htake, hdrop]
    omega
  · rw [← List.take_append_drop c.watchers c.lits.toList] at hl
    rcases List.mem_append.1 hl with hl | hl
    · by_cases hlp : l = p
      · exact Or.inl (hbefore l (hlp ▸ hpt))
      · have hln := hneg l hl hlp
        refine Or.inr ⟨hln, ?_⟩
        have := hf.valid.levelOf_le hln
        rw [hf.longer.level_eq] at this
        rw [hmlev]
        exact this
    · exact Or.inl (hbefore l (hun l hl))

/-- A visit to an at-most constraint does what its change says. -/
theorem visited_of_visitAtMost (hs : Scan dead slack R p (kept ++ x :: rest) (x :: rest) n)
    (hc : n.store.get? x.handle = some c) (ha : c.isAtMost = true)
    (h : n.visitAtMost p x c = .ok (v, n')) :
    Visited dead slack R p kept x rest n' v ∧ n.Moves n' := by
  have hx : x ∈ kept ++ x :: rest := by simp
  have hv := hs.sane.trail
  have hcf := hs.sane.formed _ c hc
  obtain ⟨k, hk⟩ := Constraint.isAtMost_eq_true.1 ha
  have hp : p ∈ c.watchedLits := Constraint.keys_atMost ha ▸ hs.mem_keys hx hc
  simp only [visitAtMost, bind_eq_ok] at h
  obtain ⟨r, hr, h⟩ := h
  have hright := Constraint.atMostChange_right hv hcf hk hp hs.mem hr
  cases r with
  | keep =>
      simp only [pure_eq_ok, Prod.mk.injEq] at h
      obtain ⟨rfl, rfl⟩ := h
      refine ⟨hs.visited fun d hd => ?_, .refl n⟩
      obtain rfl := Option.some.inj (hc.symm.trans hd)
      refine ⟨fun hna => ?_, fun _ l hl hne => ?_⟩
      · rw [ha] at hna
        cases hna
      · have hln := hright l hl hne
        exact ⟨hln, hs.level_le (l := l.neg) hln⟩
  | move l c' =>
      simp only [bind_eq_ok, pure_eq_ok, Prod.mk.injEq] at h
      obtain ⟨index, hpush, rfl, rfl⟩ := h
      obtain ⟨i, hi, hpull, hlt⟩ := hright
      refine ⟨hs.move hc hpull.same ?_ ?_ hlt ?_ rfl ?_ hpush, ⟨.of_put hc hpull.same ?_ rfl rfl, rfl⟩⟩
      · intro m
        rw [Constraint.keys_atMost ha, Constraint.keys_atMost (hpull.same.isAtMost_eq.trans ha)]
        exact Constraint.mem_watchedLits_pulled hcf hpull hi m
      · rw [Constraint.keys_atMost ha]
        exact Constraint.not_mem_watchedLits_of_unwatched hcf hpull.unwatched
      -- the place of the first literal and the blocker matter for clauses only
      · intro hna
        rw [ha] at hna
        cases hna
      · intro b hb
        have := (hs.sane.lines.blocker p x (by rwa [Function.update_self]) c hc b hb).1
        rw [ha] at this
        cases this
      · intro hna
        rw [ha] at hna
        cases hna
  | force =>
      simp only [bind_eq_ok, pure_eq_ok, Prod.mk.injEq] at h
      obtain ⟨ls, hls, t, hforce, rfl, rfl⟩ := h
      obtain rfl := Constraint.watched_eq_ok hls
      obtain ⟨-, hun⟩ := hright
      obtain ⟨hf, hneg, hnew⟩ := Trail.forced_of_forceFalse hv hs.sane.queued hforce
      have hs' := hs.force hc hf fun i m hi hle =>
        explains_of_force hcf hk hp hs.mem hun hf hneg hnew hi hle
      refine ⟨hs'.visited fun d hd => ?_, ⟨(Advances.refl n).of_forced hf rfl hc
        (Constraint.mem_of_mem_watchedLits hp) hs.level (Or.inl hs.mem), hf.head⟩⟩
      obtain rfl := Option.some.inj (hc.symm.trans hd)
      refine ⟨fun hna => ?_, fun _ l hl hne => ?_⟩
      · rw [ha] at hna
        cases hna
      · have hln := hneg l hl hne
        exact ⟨hln, hs'.level_le (l := l.neg) hln⟩
  | fail =>
      simp only [pure_eq_ok, Prod.mk.injEq] at h
      obtain ⟨rfl, rfl⟩ := h
      exact ⟨⟨rfl, hs, c, hc, hright, p, Constraint.mem_of_mem_watchedLits hp, fun _ => hs.mem,
        hs.level⟩, .refl n⟩

/-! ## Clauses -/

/-- A clause whose second literal is the complement of `p`. -/
structure Turned (c c' : Constraint) (p : Lit) : Prop where
  same : c.Same c'
  watched : ∀ l, l ∈ c'.watchedLits ↔ l ∈ c.watchedLits
  second : c'.watchedLits[1]? = some p.neg
  head : c'.lits.toList.head? = c.lits.toList.head? ∨ c.lits.toList.head? = some p.neg

theorem turned_of_swap {t : Checked Constraint} (ha : c.isAtMost = false)
    (hp : p.neg ∈ c.watchedLits) {first : Lit}
    (hfirst : c.lits[0]? = some first)
    (ht : t = if first = p.neg then c.swap 0 1 else pure c) (h : t = .ok c') : Turned c c' p := by
  subst ht
  have hw := Constraint.watchers_clause ha
  split at h
  next heq =>
      have hs := Constraint.same_swap h
      obtain ⟨-, -, h1, hget⟩ := Constraint.swap_eq_ok h
      refine ⟨hs, Constraint.mem_watchedLits_swap_head h ha, ?_, Or.inr ?_⟩
      · rw [Constraint.watchedLits, hs.watchers_eq, hw, List.getElem?_take, if_pos (by omega), hget,
          if_pos rfl, Array.getElem?_toList, hfirst, heq]
      · rw [List.head?_eq_getElem?, Array.getElem?_toList, hfirst, heq]
  next hne =>
      obtain rfl := pure_eq_ok.1 h
      refine ⟨.refl c, fun _ => Iff.rfl, ?_, Or.inl rfl⟩
      rw [Constraint.watchedLits, hw] at hp ⊢
      obtain ⟨i, hi⟩ := List.mem_iff_getElem?.1 hp
      rw [List.getElem?_take] at hi
      split at hi
      next hlt =>
          -- a clause watches its first two literals, and the first is another one
          rcases (by omega : i = 0 ∨ i = 1) with rfl | rfl
          · rw [Array.getElem?_toList, hfirst] at hi
            exact absurd (Option.some.inj hi) hne
          · rw [List.getElem?_take, if_pos hlt, hi]
      next => cases hi

/-- The part of `visitClause` after the clause was turned and its first literal read. -/
def settleClause (n : Network) (w : Watcher) (c : Constraint) (first : Lit) (satisfied : Bool) :
    Checked (Visit × Network) := do
  let w' : Watcher := ⟨w.handle, some first⟩
  if satisfied then return (.stay w', { n with store := n.store.put w.handle c })
  match ← c.pull 1 fun q => return !(← n.trail.isFalse q) with
  | some (l, c) =>
    return (.leave, { n with store := n.store.put w.handle c, index := ← n.index.push l.neg w' })
  | none =>
    let n := { n with store := n.store.put w.handle c }
    if ← n.trail.isFalse first then return (.fail w', n)
    else return (.stay w', { n with trail := ← n.trail.assign first (some w.handle) })

/-- A visit to a clause turns it, reads its first literal, and settles it. -/
theorem visitClause_eq_bind : n.visitClause p x c = (do
    let l₀ ← c.head
    let c₁ ← (if l₀ = p.neg then c.swap 0 1 else pure c : Checked Constraint)
    let first ← c₁.head
    let satisfied ← (if some first ≠ x.blocker then n.trail.isTrue first else pure false :
      Checked Bool)
    n.settleClause x c₁ first satisfied) := by
  rw [visitClause]
  refine bind_congr fun l₀ => ?_
  split
  next =>
      refine bind_congr fun c₁ => bind_congr fun first => ?_
      split <;> rfl
  next =>
      refine (bind_congr fun first => ?_ : (c.head >>= _) = (c.head >>= _))
      split <;> rfl

/-- A visit to a clause that is not refused, in its parts. -/
theorem visitClause_eq_ok {r : Visit × Network} (h : n.visitClause p x c = .ok r) :
    ∃ l₀ c₁ first satisfied, c.lits[0]? = some l₀ ∧
      (if l₀ = p.neg then c.swap 0 1 else pure c) = .ok c₁ ∧ c₁.lits[0]? = some first ∧
      (satisfied = true → n.trail.isTrue first = .ok true) ∧
      n.settleClause x c₁ first satisfied = .ok r := by
  simp only [visitClause_eq_bind, Constraint.head, bind_eq_ok, fetch_eq_ok] at h
  obtain ⟨l₀, hl₀, c₁, hc₁, first, hfirst, satisfied, hsat, hset⟩ := h
  refine ⟨l₀, c₁, first, satisfied, hl₀, hc₁, hfirst, fun hyes => ?_, hset⟩
  subst hyes
  split at hsat
  · exact hsat
  · cases pure_eq_ok.1 hsat

/-- A visit to the clause `c` of the watcher `x` after it was turned into `c₁` with the first
literal `first`. -/
structure Settles (dead : Lit → Prop) (slack : Lit → Prop) (R : World → Prop) (p : Lit)
    (kept : List Watcher) (x : Watcher) (rest : List Watcher) (n : Network) (c c₁ : Constraint)
    (first : Lit) : Prop where
  scan : Scan dead slack R p (kept ++ x :: rest) (x :: rest) n
  stored : n.store.get? x.handle = some c
  clause : c.isAtMost = false
  turned : Turned c c₁ p
  first : c₁.lits.toList.head? = some first

namespace Settles

variable {c₁ c₂ : Constraint} {first l : Lit}

section

variable (h : Settles dead slack R p kept x rest n c c₁ first)
include h

/-- The turned clause is a clause. -/
theorem isAtMost_eq : c₁.isAtMost = false := h.turned.same.isAtMost_eq.trans h.clause

/-- The turned clause is well formed, as the clause was. -/
theorem wellFormed : c₁.WellFormed n.trail.varCount :=
  h.turned.same.wellFormed (h.scan.sane.formed _ c h.stored)

/-- The first literal is one of the clause. -/
theorem mem_first : first ∈ c₁.lits.toList := List.mem_of_mem_head? h.first

/-- The literals are the first one and the others. -/
theorem eq_or_mem_tail {a : Lit} (ha : a ∈ c₁.lits.toList) :
    a = first ∨ a ∈ c₁.lits.toList.tail := by
  obtain ⟨ls, hls⟩ := List.head?_eq_some_iff.1 h.first
  rw [hls] at ha ⊢
  exact List.mem_cons.1 ha

/-- The clause was turned only if its first literal is false. -/
theorem head (_ : c.isAtMost = false) : c₁.lits.toList.head? = c.lits.toList.head? ∨
    ∀ m, c.lits.toList.head? = some m → m ∉ n.trail := by
  refine h.turned.head.imp_right fun heq m hm => ?_
  obtain rfl := Option.some.inj (heq.symm.trans hm)
  exact h.scan.sane.trail.neg_not_mem h.scan.mem

/-- The first literal may be a blocker: it belongs to the clause. -/
theorem blocker (b : Lit) (hb : some first = some b) :
    c.isAtMost = false ∧ b ∈ c.lits.toList := by
  obtain rfl := Option.some.inj hb
  exact ⟨h.clause, h.turned.same.mem_iff.1 h.mem_first⟩

/-- The turned clause is what is stored now. -/
theorem get?_put : (n.store.put x.handle c₁).get? x.handle = some c₁ := by
  rw [Store.get?_put h.stored, if_pos rfl]

/-- Turning a clause draws no conclusion. -/
theorem moves : n.Moves { n with store := n.store.put x.handle c₁ } :=
  ⟨.of_put h.stored h.turned.same h.head rfl rfl, rfl⟩

/-- The watcher may stay with the first literal as its blocker, but the clause is still due. -/
theorem scanned : Scan dead slack R p (kept ++ ⟨x.handle, some first⟩ :: rest) (x :: rest)
    { n with store := n.store.put x.handle c₁ } := by
  refine h.scan.rewrite h.stored h.turned.same (fun l => ?_) h.turned.watched h.head rfl h.blocker
  rw [Constraint.mem_keys_clause h.isAtMost_eq, Constraint.mem_keys_clause h.clause,
    h.turned.watched]

/-- The watcher stays if the first literal is true. -/
theorem stay (hft : first ∈ n.trail) :
    Visited dead slack R p kept x rest { n with store := n.store.put x.handle c₁ }
      (.stay ⟨x.handle, some first⟩) := by
  refine h.scanned.visited fun d hd => ?_
  obtain rfl := Option.some.inj (h.get?_put.symm.trans hd)
  exact Constraint.supported_of_true h.isAtMost_eq h.mem_first hft (h.scan.level_le hft)

/-- The watcher leaves if an unwatched literal that is not false takes over. -/
theorem leave {index : WatchIndex} (hpull : c₁.Pulled 1 l c₂) (hl : l.neg ∉ n.trail)
    (hpush : n.index.push l.neg ⟨x.handle, some first⟩ = .ok index) :
    Visited dead slack R p kept x rest { n with store := n.store.put x.handle c₂, index } .leave ∧
      n.Moves { n with store := n.store.put x.handle c₂, index } := by
  have hsame := h.turned.same.trans hpull.same
  have ha₂ : c₂.isAtMost = false := hsame.isAtMost_eq.trans h.clause
  have hw := Constraint.watchers_clause h.isAtMost_eq
  have hunwatched := Constraint.not_mem_watchedLits_of_unwatched h.wellFormed hpull.unwatched
  have hhead (hc : c.isAtMost = false) : c₂.lits.toList.head? = c.lits.toList.head? ∨
      ∀ m, c.lits.toList.head? = some m → m ∉ n.trail := by
    rw [hpull.head (by omega) (by omega)]
    exact h.head hc
  refine ⟨h.scan.move (y := ⟨x.handle, some first⟩) h.stored hsame (fun m => ?_) ?_ hl
    hhead rfl h.blocker hpush, .of_put h.stored hsame hhead rfl rfl, rfl⟩
  · have hm : m.neg = p.neg ↔ m = p := ⟨fun heq => by rw [← Lit.neg_neg m, heq, Lit.neg_neg],
      fun heq => heq ▸ rfl⟩
    have hml : m.neg = l ↔ m = l.neg := ⟨fun heq => heq ▸ (Lit.neg_neg m).symm,
      fun heq => heq ▸ Lit.neg_neg l⟩
    rw [Constraint.mem_keys_clause ha₂, Constraint.mem_watchedLits_pulled h.wellFormed hpull
      h.turned.second, Constraint.mem_keys_clause h.clause, h.turned.watched, hml, ne_eq, hm]
  · rw [Constraint.mem_keys_clause h.clause, Lit.neg_neg, ← h.turned.watched]
    exact hunwatched

/-- If no literal can take over, every literal after the first is false. -/
theorem tail_false (ho : (c₁.pull 1 fun q => do return !(← n.trail.isFalse q)) = .ok none) :
    ∀ a ∈ c₁.lits.toList.tail, a.neg ∈ n.trail := by
  intro a ha
  rw [← List.drop_one] at ha
  obtain ⟨i, hi⟩ := List.mem_iff_getElem?.1 ha
  rw [List.getElem?_drop] at hi
  have hw := Constraint.watchers_clause h.isAtMost_eq
  cases i with
  | zero =>
      -- the second literal is the complement of the one that was assigned
      have hsecond := h.turned.second
      rw [Constraint.watchedLits, hw, List.getElem?_take, if_pos (by omega)] at hsecond
      obtain rfl := Option.some.inj (hsecond.symm.trans hi)
      rw [Lit.neg_neg]
      exact h.scan.mem
  | succ i =>
      have hmem : a ∈ c₁.lits.toList.drop c₁.watchers := by
        rw [hw]
        refine List.mem_iff_getElem?.2 ⟨i, ?_⟩
        rw [List.getElem?_drop, show 2 + i = 1 + (i + 1) by omega, hi]
      have htest := Constraint.pull_eq_none ho a hmem
      simp only [bind_eq_ok, pure_eq_ok] at htest
      obtain ⟨b, hb, hb'⟩ := htest
      exact (h.scan.sane.trail.isFalse_ok hb).1 (by simpa using hb')

/-- The visit fails if the first literal is false as the others are. -/
theorem fail (htail : ∀ a ∈ c₁.lits.toList.tail, a.neg ∈ n.trail) (hfalse : first.neg ∈ n.trail) :
    Visited dead slack R p kept x rest { n with store := n.store.put x.handle c₁ }
      (.fail ⟨x.handle, some first⟩) := by
  have hp : p.neg ∈ c.watchedLits := (Constraint.mem_keys_clause h.clause).1
    (h.scan.mem_keys (by simp) h.stored)
  have hpc : p.neg ∈ c₁.lits.toList :=
    Constraint.mem_of_mem_watchedLits ((h.turned.watched _).2 hp)
  refine ⟨rfl, h.scanned, c₁, h.get?_put, ⟨fun _ a ha => ?_, fun k hk =>
    absurd hk (Constraint.kind_ne_atMost h.isAtMost_eq k)⟩, p.neg, hpc, fun hat => ?_, h.scan.level⟩
  · rcases h.eq_or_mem_tail ha with rfl | ha
    · exact hfalse
    · exact htail a ha
  · rw [h.isAtMost_eq] at hat
    cases hat

/-- The first literal becomes true if the others are false. -/
theorem force {t : Trail} (htail : ∀ a ∈ c₁.lits.toList.tail, a.neg ∈ n.trail)
    (hassign : n.trail.assign first (some x.handle) = .ok t) :
    Visited dead slack R p kept x rest
      { n with store := n.store.put x.handle c₁, trail := t } (.stay ⟨x.handle, some first⟩) ∧
      n.Moves { n with store := n.store.put x.handle c₁, trail := t } := by
  have hasg := Trail.assigned_of_assign hassign
  have hf : n.trail.Forced x.handle t :=
    (Trail.Forced.refl h.scan.sane.trail h.scan.sane.queued x.handle).assigned hasg
  have hs := h.scanned.force h.get?_put hf fun i m hi hle => by
    have hmt := hf.longer.not_mem_of_size_le hf.valid hi hle
    obtain rfl := (hasg.mem_iff.1 (List.mem_of_getElem? hi)).resolve_left hmt
    exact ⟨fun _ => ⟨h.first, fun a ha => hf.longer.mem_take (htail a ha) hle⟩, fun k hk =>
      absurd hk (Constraint.kind_ne_atMost h.isAtMost_eq k)⟩
  have hpc : p.neg ∈ c₁.lits.toList := Constraint.mem_of_mem_watchedLits
    (List.mem_of_getElem? h.turned.second)
  have hpt : p.neg.neg ∈ n.trail := (Lit.neg_neg p).symm ▸ h.scan.mem
  refine ⟨hs.visited fun d hd => ?_, h.moves.toAdvances.of_forced hf rfl h.get?_put hpc
    h.scan.level (Or.inr ⟨h.isAtMost_eq, hpt⟩), hf.head⟩
  obtain rfl := Option.some.inj (h.get?_put.symm.trans hd)
  have hft : first ∈ t := hasg.mem_iff.2 (Or.inr rfl)
  exact Constraint.supported_of_true h.isAtMost_eq h.mem_first hft (hs.level_le hft)

end

/-- Settling a clause that was turned, in one of its four ways. -/
theorem visited {satisfied : Bool} (h : Settles dead slack R p kept x rest n c c₁ first)
    (hsat : satisfied = true → first ∈ n.trail)
    (hok : n.settleClause x c₁ first satisfied = .ok (v, n')) :
    Visited dead slack R p kept x rest n' v ∧ n.Moves n' := by
  have hv := h.scan.sane.trail
  rw [settleClause] at hok
  split at hok
  next hyes =>
      obtain ⟨rfl, rfl⟩ := Prod.mk.inj (pure_eq_ok.1 hok)
      exact ⟨h.stay (hsat hyes), h.moves⟩
  next =>
      obtain ⟨o, ho, hok⟩ := bind_eq_ok.1 hok
      cases o with
      | some q =>
          obtain ⟨l, c₂⟩ := q
          simp only [bind_eq_ok, pure_eq_ok, Prod.mk.injEq] at hok
          obtain ⟨index, hpush, rfl, rfl⟩ := hok
          -- another literal is not false, and takes over the watch
          obtain ⟨hpull, htest⟩ := Constraint.pull_eq_some ho
          simp only [bind_eq_ok, pure_eq_ok] at htest
          obtain ⟨b, hb, hb'⟩ := htest
          refine h.leave hpull (fun hmem => ?_) hpush
          rw [(hv.isFalse_ok hb).2 hmem] at hb'
          cases hb'
      | none =>
          -- all literals from the third on are false, so the first one decides
          have htail := h.tail_false ho
          obtain ⟨b, hb, hok⟩ := bind_eq_ok.1 hok
          cases b with
          | true =>
              obtain ⟨rfl, rfl⟩ := Prod.mk.inj (pure_eq_ok.1 hok)
              exact ⟨h.fail htail ((hv.isFalse_ok hb).1 rfl), h.moves⟩
          | false =>
              simp only [Bool.false_eq_true, if_false, bind_eq_ok, pure_eq_ok,
                Prod.mk.injEq] at hok
              obtain ⟨t, hassign, rfl, rfl⟩ := hok
              exact h.force htail hassign

end Settles

/-- The state after a clause was turned. -/
theorem settles_of_turned {l₀ first : Lit} {c₁ : Constraint}
    (hs : Scan dead slack R p (kept ++ x :: rest) (x :: rest) n)
    (hc : n.store.get? x.handle = some c) (ha : c.isAtMost = false) (hl₀ : c.lits[0]? = some l₀)
    (hc₁ : (if l₀ = p.neg then c.swap 0 1 else pure c) = .ok c₁)
    (hfirst : c₁.lits[0]? = some first) : Settles dead slack R p kept x rest n c c₁ first := by
  have hp : p.neg ∈ c.watchedLits :=
    (Constraint.mem_keys_clause ha).1 (hs.mem_keys (by simp) hc)
  refine ⟨hs, hc, ha, turned_of_swap ha hp hl₀ rfl hc₁, ?_⟩
  rw [List.head?_eq_getElem?, Array.getElem?_toList, hfirst]

/-- A visit to a clause keeps the invariant of the scan. -/
theorem visited_of_visitClause (hs : Scan dead slack R p (kept ++ x :: rest) (x :: rest) n)
    (hc : n.store.get? x.handle = some c) (ha : c.isAtMost = false)
    (h : n.visitClause p x c = .ok (v, n')) :
    Visited dead slack R p kept x rest n' v ∧ n.Moves n' := by
  obtain ⟨l₀, c₁, first, satisfied, hl₀, hc₁, hfirst, hsat, h⟩ := visitClause_eq_ok h
  exact (settles_of_turned hs hc ha hl₀ hc₁ hfirst).visited
    (fun hyes => (hs.sane.trail.isTrue_ok (hsat hyes)).1 rfl) h

/-! ## Any constraint

A visit ends at once if the blocker is true, since a clause with a true literal needs no watch, or
if the handle is no longer in use. Otherwise the constraint is fetched and visited by its kind. -/

/-- The part of `visit` after the blocker was looked at. -/
def visitStored (n : Network) (p : Lit) (w : Watcher) : Checked (Visit × Network) :=
  match n.store.get? w.handle with
  | none => pure (.leave, n)
  | some c => if c.isAtMost then n.visitAtMost p w c else n.visitClause p w c

/-- The three ways that a visit can take. -/
theorem visit_eq_ok {r : Visit × Network} (h : n.visit p x = .ok r) :
    (∃ b, x.blocker = some b ∧ n.trail.isTrue b = .ok true ∧ r = (.stay x, n)) ∨
      n.store.get? x.handle = none ∧ r = (.leave, n) ∨
      ∃ c, n.store.get? x.handle = some c ∧
        (if c.isAtMost then n.visitAtMost p x c else n.visitClause p x c) = .ok r := by
  have hlook : n.visitStored p x = .ok r → n.store.get? x.handle = none ∧ r = (.leave, n) ∨
      ∃ c, n.store.get? x.handle = some c ∧
        (if c.isAtMost then n.visitAtMost p x c else n.visitClause p x c) = .ok r := by
    intro h
    unfold visitStored at h
    split at h
    next hnone => exact Or.inl ⟨hnone, (pure_eq_ok.1 h).symm⟩
    next c hc => exact Or.inr ⟨c, hc, h⟩
  simp only [visit] at h
  split at h
  next b hb =>
      simp only [bind_eq_ok] at h
      obtain ⟨blocked, hblocked, h⟩ := h
      cases blocked with
      | true =>
          simp only [if_true, pure_eq_ok] at h
          exact Or.inl ⟨b, hb, hblocked, h.symm⟩
      | false => exact Or.inr (hlook h)
  next => exact Or.inr (hlook h)

/-- A visit keeps the invariant of the scan. -/
theorem visited_of_visit (hs : Scan dead slack R p (kept ++ x :: rest) (x :: rest) n)
    (h : n.visit p x = .ok (v, n')) :
    Visited dead slack R p kept x rest n' v ∧ n.Moves n' := by
  have hx : x ∈ kept ++ x :: rest := by simp
  have hv := hs.sane.trail
  rcases visit_eq_ok h with ⟨b, hxb, hb, heq⟩ | ⟨hnone, heq⟩ | ⟨c, hc, h⟩
  · obtain ⟨rfl, rfl⟩ := Prod.mk.inj heq
    have hbt := (hv.isTrue_ok hb).1 rfl
    refine ⟨hs.visited fun c hc => ?_, .refl _⟩
    obtain ⟨ha, hbc⟩ := hs.sane.lines.blocker p x (by rwa [Function.update_self]) c hc b hxb
    refine ⟨fun _ => ⟨b, ?_, hbt, hs.level_le hbt⟩, fun hat => ?_⟩
    · refine hbc.resolve_right fun hdead => ?_
      exact hv.neg_not_mem hbt (hs.sane.dead_false b hdead)
    · rw [ha] at hat
      cases hat
  · obtain ⟨rfl, rfl⟩ := Prod.mk.inj heq
    exact ⟨hs.drop hnone, .refl _⟩
  · split at h
    next ha => exact visited_of_visitAtMost hs hc ha h
    next ha => exact visited_of_visitClause hs hc (by simpa using ha) h

end Network

end CardSat
