import CardSat.Proofs.Propagation.Visit

set_option autoImplicit false

/-! # Propagation

What a whole propagation does (`Network.Propagated`): it keeps the network sane and sound, and draws
conclusions on the current level only. If no constraint fails, then afterwards nothing waits and no
constraint is forgotten; otherwise it names a `Conflict`, and nothing is forgotten below the current
level. What was forgotten under `slack` keys before remains so.

The steps are those of the definitions: `visitAll` goes through one line, `propagateLit` takes the
line out of the index and puts it back, `propagateWithin` empties the queue.

## Where the work is done

What a single visit does is proved in `Proofs/Propagation/Visit`, on top of the invariant of a line
in `Proofs/Propagation/Scan` and the treatment of at-most constraints in
`Proofs/Propagation/AtMost`. This file only composes these lemmas. That a propagation returns is
proved separately, in `Proofs/Propagation/Returning`, with the same invariants and one more.

The parameter `slack` is for what is forgotten on purpose. A search that was canceled, and a learnt
clause that was not forced, leave constraints that are not reconsidered under some of their keys
until the trail is rewound, and everything else is propagated as it should be.
-/

namespace CardSat

namespace Network

variable {dead : Lit → Prop} {slack : Lit → Prop} {R : World → Prop} {p : Lit} {n n' : Network}

/-! ## One line

The loop is over the watchers that are not visited yet; those that stay are collected in `kept`. At
the end either all of them were visited, or a constraint has failed and the rest stays in the line.
-/

/-- Going through a line keeps the invariant of the scan, with the watchers that stay and what is
left of the line. If no constraint fails, none is left. -/
theorem scanned_of_visitAll : ∀ {rest : List Watcher} {kept ws : Array Watcher}
    {failed : Option Handle} {n n' : Network},
    Scan dead slack R p (kept.toList ++ rest) rest n →
    visitAll p rest kept n = .ok (ws, failed, n') →
    n.Moves n' ∧ ∃ due, Scan dead slack R p ws.toList due n' ∧
      (failed = none → due = []) ∧ ∀ h, failed = some h → n'.Conflict h := by
  intro rest
  induction rest with
  | nil =>
      intro kept ws failed n n' hs h
      simp only [visitAll, pure_eq_ok, Prod.mk.injEq] at h
      obtain ⟨rfl, rfl, rfl⟩ := h
      rw [List.append_nil] at hs
      exact ⟨.refl n, [], hs, fun _ => rfl, by simp⟩
  | cons x rest ih =>
      intro kept ws failed n n' hs h
      simp only [visitAll, bind_eq_ok] at h
      obtain ⟨⟨v, n₁⟩, hvisit, h⟩ := h
      obtain ⟨hv, hm⟩ := visited_of_visit hs hvisit
      cases v with
      | stay y =>
          have hs₁ : Scan dead slack R p ((kept.push y).toList ++ rest) rest n₁ := by
            simpa [Visited] using hv
          obtain ⟨hm', hr⟩ := ih hs₁ h
          exact ⟨hm.trans hm', hr⟩
      | leave =>
          obtain ⟨hm', hr⟩ := ih hv h
          exact ⟨hm.trans hm', hr⟩
      -- the watcher that failed and those behind it are still to be visited
      | fail y =>
          obtain ⟨hyx, hs₁, hconf⟩ := hv
          simp only [pure_eq_ok, Prod.mk.injEq] at h
          obtain ⟨rfl, rfl, rfl⟩ := h
          refine ⟨hm, x :: rest, by simpa using hs₁, by simp, fun a ha => ?_⟩
          obtain rfl := Option.some.inj ha
          exact hyx ▸ hconf

/-! ## One literal

The line of the literal is out of the index while it is gone through, so that watchers may be added
to other lines and the line itself be replaced at the end. The two states of the index are related
by `Sane.take`. -/

/-- Taking a line out of the index loses no watcher of a stored constraint. -/
theorem Sane.take (h : n.Sane dead n.index.line) {ws : Array Watcher} {index : WatchIndex}
    (ht : n.index.take n.store p = .ok (ws, index)) :
    Sane { n with index } dead (Function.update index.line p ws.toList) := by
  obtain ⟨hline, hsub, hlost⟩ := WatchIndex.take_eq_ok ht
  refine { h with lines := h.lines.of_lines ?_ ?_ }
  · intro a c hc l
    rw [hline, Function.update_idem]
    by_cases hl : l = p
    · subst hl
      rw [Function.update_self]
      refine Nat.le_antisymm hsub.countP_le ?_
      -- cleaning a line takes watchers of freed constraints only, so the count of a stored one
      -- stays
      have hcount := h.lines.count a c hc l
      rw [hcount]
      split
      next hk =>
          rw [if_pos hk] at hcount
          obtain ⟨x, hx, hxa⟩ := List.countP_pos_iff.1 (by rw [hcount]; exact Nat.one_pos)
          obtain rfl : x.handle = a := by simpa using hxa
          refine List.countP_pos_iff.2 ⟨x, (hlost x hx).resolve_right ?_, by simp⟩
          rw [hc]
          simp
      next => exact Nat.zero_le _
    · rw [Function.update_of_ne hl]
  · intro l x hx
    rw [hline, Function.update_idem] at hx
    by_cases hl : l = p
    · subst hl
      rw [Function.update_self] at hx
      exact hsub.subset hx
    · rwa [Function.update_of_ne hl] at hx

/-- What a propagation of a network ends with. -/
structure Propagated (dead : Lit → Prop) (slack : Lit → Prop) (R : World → Prop) (n : Network)
    (failed : Option Handle) (n' : Network) : Prop where
  sane : n'.Sane dead n'.index.line
  sound : n'.Sound R
  advances : n.Advances n'
  watching : failed = none → n'.Watching fun _ => slack
  conflict : ∀ h, failed = some h → n'.Conflict h ∧
    n'.Watching fun _ key => slack key ∨ n'.trail.level ≤ n'.trail.levelOf key.var

/-- Propagating one literal reconsiders the constraints under its key, which are no longer forgotten
afterwards. -/
theorem propagated_of_propagateLit {failed : Option Handle}
    (hs : n.Sane dead n.index.line) (hr : n.Sound R) (hp : p ∈ n.trail.done)
    (hlevel : n.trail.levelOf p.var = n.trail.level)
    (hw : n.Watching fun _ key => slack key ∨ key = p) (h : n.propagateLit p = .ok (failed, n')) :
    Propagated dead slack R n failed n' ∧ n'.trail.head = n.trail.head := by
  simp only [propagateLit, bind_eq_ok, pure_eq_ok] at h
  obtain ⟨⟨ws, index⟩, htake, ⟨kept, failed', n₁⟩, hall, index', hrestore, heq⟩ := h
  obtain ⟨rfl, rfl⟩ := Prod.mk.inj heq
  have hsane := hs.take htake
  obtain ⟨hline, -, hlost⟩ := WatchIndex.take_eq_ok htake
  have hscan : Scan dead slack R p (#[].toList ++ ws.toList) ws.toList { n with index } := by
    refine ⟨hsane, by simp only [hline, Function.update_self], hp, hlevel, ⟨hr.stored, hr.ground⟩,
      ?_⟩
    intro a c hc key hk hdone
    rcases hw a c hc key hk hdone with (hslack | rfl) | hsup
    · exact Or.inl (Or.inl hslack)
    · -- the watcher of the constraint under `p` was not lost
      have hcount := hs.lines.count a c hc key
      rw [if_pos hk] at hcount
      obtain ⟨x, hx, hxa⟩ := List.countP_pos_iff.1 (by rw [hcount]; exact Nat.one_pos)
      obtain rfl : x.handle = a := by simpa using hxa
      refine Or.inl (Or.inr ⟨rfl, x, (hlost x hx).resolve_right ?_, rfl⟩)
      have hc' : n.store.get? x.handle = some c := hc
      rw [hc']
      simp
    · exact Or.inr hsup
  obtain ⟨hm, due, hend, hnone, hconf⟩ := scanned_of_visitAll hscan hall
  -- the line goes back into the index, and the family of lines is that of the index again
  have hline' := WatchIndex.line_restore hrestore
  have hsane' : Sane { n₁ with index := index' } dead index'.line := by
    have := hend.sane
    rw [← hline'] at this
    exact ⟨this.trail, this.queued, this.formed, this.lines, this.reasons, this.dead_false⟩
  refine ⟨⟨hsane', ⟨hend.sound.stored, hend.sound.ground⟩, ⟨hm.trail, hm.store, hm.prompted,
    hm.heads⟩, fun hf => ?_, fun a ha => ⟨hconf a ha, ?_⟩⟩, hm.head⟩
  · obtain rfl := hnone hf
    refine hend.watching.mono ?_
    rintro a c - key - - (hslack | ⟨-, x, hx, -⟩)
    · exact Or.inl hslack
    · cases hx
  · refine hend.watching.mono ?_
    rintro a c - key - - (hslack | ⟨rfl, -⟩)
    · exact Or.inl (Or.inl hslack)
    · exact Or.inl (Or.inr (Nat.le_of_eq hend.level.symm))

/-! ## The queue

The fuel is the number of variables and one more. Every turn takes one literal off the queue and
literals are never taken off the trail, so it is not used up; that is shown with termination. -/

/-- Moving the head of the queue forward changes nothing that a sane network promises. -/
theorem Sane.withHead {line : Lit → List Watcher} (h : n.Sane dead line) {k : Nat}
    (hle : n.trail.head ≤ k) (hk : k ≤ n.trail.lits.size) :
    Sane { n with trail := { n.trail with head := k } } dead line where
  trail := Trail.valid_withHead h.trail hk
  queued := Nat.le_trans h.queued hle
  formed := h.formed
  lines := h.lines
  reasons i m a hi ha := by
    obtain ⟨c, hc, he⟩ := h.reasons i m a hi ha
    exact ⟨c, hc, he.keep (Trail.keeps_withHead _ _ _)⟩
  dead_false := h.dead_false

/-- A waiting literal is one of the current level. -/
theorem levelOf_of_waiting {t : Trail} (hv : t.Valid) (hq : t.Queued) {i : Nat}
    (hi : t.lits.toList[i]? = some p) (hle : t.head ≤ i) : t.levelOf p.var = t.level := by
  refine Nat.le_antisymm (hv.levelOf_le (List.mem_of_getElem? hi)) ?_
  by_contra hlt
  cases hl : t.level with
  | zero => omega
  | succ b =>
      have := (hv.levelOf_le_iff (b := b) hi).1 (by omega)
      rw [Trail.Queued, hl, Trail.levelStart] at hq
      omega

/-- Emptying the queue, one literal after the other, up to the first constraint that fails. -/
theorem propagated_of_propagateWithin : ∀ {fuel : Nat} {n n' : Network}
    {failed : Option Handle}, n.Sane dead n.index.line → n.Sound R →
    n.Watching (fun _ => slack) → n.propagateWithin fuel = .ok (failed, n') →
    Propagated dead slack R n failed n' ∧ n'.trail.head = n'.trail.lits.size := by
  intro fuel
  induction fuel with
  | zero =>
      intro n n' failed _ _ _ h
      simp [propagateWithin, throw_ne_ok] at h
  | succ fuel ih =>
      intro n n' failed hs hr hw h
      rw [propagateWithin] at h
      split at h
      next hnone =>
          simp only [pure_eq_ok, Prod.mk.injEq] at h
          obtain ⟨rfl, rfl⟩ := h
          exact ⟨⟨hs, hr, .refl n, fun _ => hw, by simp⟩,
            Trail.dequeue_eq_none hs.trail hnone⟩
      next p t hsome =>
          obtain ⟨hp, rfl⟩ := Trail.dequeue_eq_some hsome
          have hlt : n.trail.head < n.trail.lits.size := by
            simpa using (List.getElem?_eq_some_iff.1 hp).1
          have hs₀ : Sane { n with
              trail := { n.trail with head := n.trail.head + 1 }
              propagations := n.propagations + 1 } dead n.index.line :=
            { hs.withHead (Nat.le_succ n.trail.head) hlt with }
          -- the literals before the new head are those before the old one, and `p`
          have hdone : { n.trail with head := n.trail.head + 1 }.done = n.trail.done ++ [p] := by
            simp only [Trail.done, List.take_add_one, hp, Option.toList_some]
          have hw₀ : Watching { n with
              trail := { n.trail with head := n.trail.head + 1 }
              propagations := n.propagations + 1 } fun _ key => slack key ∨ key = p := by
            intro a c hc key hk hd
            rw [hdone] at hd
            rcases List.mem_append.1 hd with hd | hd
            · exact (hw a c hc key hk hd).imp Or.inl fun hsup =>
                hsup.keep (Trail.keeps_withHead _ _ _)
            · exact Or.inl (Or.inr (List.mem_singleton.1 hd))
          simp only [bind_eq_ok] at h
          obtain ⟨⟨failed₁, n₁⟩, hlit, h⟩ := h
          obtain ⟨hpr, hhead⟩ := propagated_of_propagateLit hs₀
            ⟨hr.stored, hr.ground⟩ (by rw [hdone]; simp)
            (levelOf_of_waiting (t := n.trail) hs.trail hs.queued hp (Nat.le_refl _)) hw₀ hlit
          have hadv : n.Advances n₁ := ⟨⟨hpr.advances.trail.lits, hpr.advances.trail.starts,
            hpr.advances.trail.varCount, hpr.advances.trail.cell, hpr.advances.trail.free⟩,
            hpr.advances.store, hpr.advances.prompted, hpr.advances.heads⟩
          cases failed₁ with
          | none =>
              obtain ⟨hpr', hhead'⟩ := ih hpr.sane hpr.sound (hpr.watching rfl) h
              exact ⟨{ hpr' with advances := hadv.trans hpr'.advances }, hhead'⟩
          | some a =>
              simp only [pure_eq_ok, Prod.mk.injEq] at h
              obtain ⟨rfl, rfl⟩ := h
              have hs₁ := hpr.sane.withHead hpr.sane.trail.head_le (Nat.le_refl _)
              obtain ⟨hconf, hbelow⟩ := hpr.conflict a rfl
              refine ⟨⟨hs₁, ⟨hpr.sound.stored, hpr.sound.ground⟩, ⟨⟨hadv.trail.lits,
                hadv.trail.starts, hadv.trail.varCount, hadv.trail.cell, hadv.trail.free⟩, hadv.store,
                hadv.prompted, hadv.heads⟩,
                by simp, fun b hb => ?_⟩, rfl⟩
              obtain rfl := Option.some.inj hb
              obtain ⟨c, hc, hf, l, hl, hlt, hlev⟩ := hconf
              refine ⟨⟨c, hc, ⟨hf.clause, hf.atMost⟩, l, hl, hlt, hlev⟩, fun b d hd key hk hm => ?_⟩
              -- the literals that waited are of the current level
              by_cases hle : n₁.trail.level ≤ n₁.trail.levelOf key.var
              · exact Or.inl (Or.inr hle)
              · have hdone := hpr.sane.trail.mem_done_of_levelOf_lt hpr.sane.queued
                  (List.mem_of_mem_take hm) (Nat.lt_of_not_le hle)
                exact (hbelow b d hd key hk hdone).imp id fun hsup =>
                  hsup.keep (Trail.keeps_withHead _ _ _)

/-- The specification of propagation. -/
theorem propagated_of_propagate {failed : Option Handle} (hs : n.Sane dead n.index.line)
    (hr : n.Sound R) (hw : n.Watching fun _ => slack)
    (h : n.propagate = .ok (failed, n')) :
    Propagated dead slack R n failed n' ∧ n'.trail.head = n'.trail.lits.size :=
  propagated_of_propagateWithin hs hr hw h

end Network

end CardSat
