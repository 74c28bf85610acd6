import CardSat.Proofs.Propagation

set_option autoImplicit false

/-! # Propagation does not look at reasons

A network whose trail has forgotten some reasons is propagated like the one that knows them
(`Network.alike_of_propagate`): the same constraint fails, and whatever becomes true does so for the
same reason. So what propagation keeps does not depend on whether the reasons of the literals that
were there before explain them. The relation between the two trails, in the course of a propagation
that began with a trail `old`, is `Trail.Alike`.

## What this is for

After a canceled search, or where a learnt clause was asserted that was not forced, a literal may be
on the trail with a reason that does not explain it. Such a network is not sane. The same network
with this reason forgotten is sane, and its propagation is understood; the lemma carries the result
back. Only propagation is treated in this way, since it reads values, levels and the queue, but
never a reason.

The lemmas follow the definitions. Each takes a run with the reasons and gives the run without them,
which ends in an alike trail.
-/

namespace CardSat

namespace Trail

variable {old t t' u : Trail} {l p : Lit} {r r' : Option Handle}

/-! ## Reading

What propagation reads of a trail is the same where reasons were forgotten. -/

namespace Cleared

/-- Every variable has the same value. -/
theorem value_eq (h : t.Cleared u) : u.value = t.value := by
  funext l
  by_cases hlt : l.var.index < t.varCount
  · rw [value_eq_ok.2 ⟨hlt, rfl⟩, value_eq_ok.2 ⟨h.varCount ▸ hlt, h.truth l⟩]
  · have hno : ∀ s : Trail, ¬ l.var.index < s.varCount → s.cell l.var = .error .absent :=
      fun s hs => by
        rw [cell, fetch, Array.getElem?_eq_none (Nat.le_of_not_lt hs)]
        rfl
    rw [Trail.value, Trail.value, hno t hlt, hno u (h.varCount ▸ hlt)]

/-- The same literals are true. -/
theorem isTrue_eq (h : t.Cleared u) : u.isTrue = t.isTrue := by
  funext l
  rw [isTrue, isTrue, h.value_eq]

/-- The same literals are false. -/
theorem isFalse_eq (h : t.Cleared u) : u.isFalse = t.isFalse := by
  funext l
  rw [isFalse, isFalse, h.value_eq]

/-- Taking a literal off the queue is the same in both. -/
theorem withHead (h : t.Cleared u) (k : Nat) :
    Cleared { t with head := k } { u with head := k } :=
  ⟨h.lits, h.starts, rfl, h.varCount, h.value, h.level, h.reason⟩

/-- What may be assigned does not depend on reasons; the new one may be forgotten, too. -/
theorem assign (h : t.Cleared u) (hr : r' = r ∨ r' = none) (ha : t.assign l r = .ok t') :
    ∃ u', u.assign l r' = .ok u' ∧ t'.Cleared u' := by
  have ht := assigned_of_assign ha
  obtain ⟨u', hu⟩ : ∃ u', u.assign l r' = .ok u' := by
    simp only [Trail.assign, bind_eq_ok, cell_eq_ok, require_eq_ok, pure_eq_ok]
    exact ⟨_, _, ⟨h.varCount ▸ ht.bound, rfl⟩, (), isUnset_iff.2 ((h.truth l).trans ht.unset), rfl⟩
  have hu' := assigned_of_assign hu
  refine ⟨u', hu, ?_, hu'.starts.trans (h.starts.trans ht.starts.symm),
    hu'.head.trans (h.head.trans ht.head.symm),
    hu'.varCount.trans (h.varCount.trans ht.varCount.symm), fun v => ?_, fun v => ?_, fun v => ?_⟩
  · rw [← Array.toList_inj, ht.lits, hu'.lits, h.lits]
  all_goals by_cases hvl : v = l.var
  · rw [hvl, ht.cell_eq, hu'.cell_eq]
  · rw [ht.cell_ne v hvl, hu'.cell_ne v hvl, h.value]
  · rw [hvl, ht.levelOf_self, hu'.levelOf_self, h.level_eq]
  · rw [levelOf, hu'.cell_ne v hvl, levelOf, ht.cell_ne v hvl]
    exact h.level v
  · rw [hvl, ht.reasonOf_self, hu'.reasonOf_self]
    exact hr
  · rw [reasonOf, hu'.cell_ne v hvl, reasonOf, ht.cell_ne v hvl]
    exact h.reason v

end Cleared

/-! ## Making literals true -/

/-- The trail `t` has more literals than `old`, but has changed no other cells, and `u` is `t` with
reasons forgotten that `old` knows. -/
structure Alike (old t u : Trail) : Prop where
  cleared : t.Cleared u
  since : ∀ l ∈ t, l ∈ old ∨ u.reasonOf l.var = t.reasonOf l.var
  cell : ∀ v, t.cellOf v = old.cellOf v ∨ (old.cellOf v).value = .unset ∧ ∃ l ∈ t, l.var = v

namespace Alike

/-- Taking a literal off the queue is the same in both. -/
theorem withHead (h : Alike old t u) (k : Nat) :
    Alike old { t with head := k } { u with head := k } :=
  ⟨h.cleared.withHead k, h.since, h.cell⟩

/-- A literal that is assigned gets the same reason in both. -/
theorem assign (h : Alike old t u) (ha : t.assign l r = .ok t') :
    ∃ u', u.assign l r = .ok u' ∧ Alike old t' u' := by
  obtain ⟨u', hu, hc⟩ := h.cleared.assign (Or.inl rfl) ha
  have ht := assigned_of_assign ha
  have hu' := assigned_of_assign hu
  refine ⟨u', hu, hc, fun m hm => ?_, fun v => ?_⟩
  · by_cases hml : m.var = l.var
    · exact Or.inr (by rw [hml, hu'.reasonOf_self, ht.reasonOf_self])
    · have hm' : m ∈ t := (ht.mem_iff.1 hm).resolve_right fun he => hml (he ▸ rfl)
      refine (h.since m hm').imp_right fun heq => ?_
      rw [reasonOf, hu'.cell_ne _ hml, reasonOf, ht.cell_ne _ hml]
      exact heq
  · by_cases hvl : v = l.var
    · subst hvl
      refine Or.inr ⟨?_, l, ht.mem_iff.2 (Or.inr rfl), rfl⟩
      rcases h.cell l.var with heq | ⟨hunset, -⟩
      · rw [← heq]
        exact Truth.ofSide_eq_unset.1 ht.unset
      · exact hunset
    · rw [ht.cell_ne v hvl]
      rcases h.cell v with heq | ⟨hunset, m, hm, hmv⟩
      · exact Or.inl heq
      · exact Or.inr ⟨hunset, m, ht.mem_iff.2 (Or.inl hm), hmv⟩

/-- Making the literals of a list false does the same in both. -/
theorem forceFalse {a : Handle} : ∀ {ls : List Lit} {t u t' : Trail}, Alike old t u →
    t.forceFalse p a ls = .ok t' → ∃ u', u.forceFalse p a ls = .ok u' ∧ Alike old t' u' := by
  intro ls
  induction ls with
  | nil =>
      intro t u t' h hf
      obtain rfl := pure_eq_ok.1 hf
      exact ⟨u, rfl, h⟩
  | cons l ls ih =>
      intro t u t' h hf
      rw [Trail.forceFalse, List.foldlM_cons, bind_eq_ok] at hf
      obtain ⟨t₁, hstep, hf⟩ := hf
      -- the same literals are passed over on both trails, as values do not depend on reasons
      obtain ⟨u₁, hu₁, h₁⟩ : ∃ u₁, (do
          if l = p then return u
          else if ← u.isFalse l then return u
          else u.assign l.neg (some a) : Checked Trail) = .ok u₁ ∧ Alike old t₁ u₁ := by
        rw [h.cleared.isFalse_eq]
        split at hstep
        next hlp =>
            obtain rfl := pure_eq_ok.1 hstep
            exact ⟨u, if_pos hlp, h⟩
        next hlp =>
            rw [bind_eq_ok] at hstep
            obtain ⟨b, hb, hstep⟩ := hstep
            rw [if_neg hlp, hb, ok_bind]
            cases b with
            | true =>
                obtain rfl := pure_eq_ok.1 hstep
                exact ⟨u, rfl, h⟩
            | false => exact h.assign hstep
      obtain ⟨u', hu, h'⟩ := ih h₁ hf
      refine ⟨u', ?_, h'⟩
      rw [Trail.forceFalse, List.foldlM_cons, bind_eq_ok]
      exact ⟨u₁, hu₁, hu⟩

end Alike

end Trail

namespace Constraint

variable {t u : Trail}

/-- A scan of an at-most constraint comes to the same change. -/
theorem atMostScan_of_cleared (h : t.Cleared u) (c : Constraint) (p : Lit) : ∀ (ls : List Lit)
    (i falses trues : Nat), c.atMostScan u p ls i falses trues =
      c.atMostScan t p ls i falses trues := by
  intro ls
  induction ls with
  | nil =>
      intro i falses trues
      rfl
  | cons l ls ih =>
      intro i falses trues
      simp only [atMostScan, h.value_eq, h.isTrue_eq, ih]

/-- An at-most constraint makes the same change. -/
theorem atMostChange_of_cleared (h : t.Cleared u) (c : Constraint) (p : Lit) :
    c.atMostChange u p = c.atMostChange t p := by
  simp only [atMostChange, atMostScan_of_cleared h]

end Constraint

namespace Network

variable {old u : Trail} {n n' : Network} {p : Lit} {w : Watcher} {c : Constraint} {v : Visit}

/-! ## Visits

Each visit has the same outcome, and leaves alike trails. -/

/-- Visiting an at-most constraint. -/
theorem alike_of_visitAtMost (ha : old.Alike n.trail u)
    (h : n.visitAtMost p w c = .ok (v, n')) :
    ∃ u', visitAtMost { n with trail := u } p w c = .ok (v, { n' with trail := u' }) ∧
      old.Alike n'.trail u' := by
  simp only [visitAtMost, bind_eq_ok] at h
  obtain ⟨change, hchange, h⟩ := h
  simp only [visitAtMost, Constraint.atMostChange_of_cleared ha.cleared, hchange, ok_bind]
  cases change with
  | keep =>
      obtain ⟨rfl, rfl⟩ := Prod.mk.inj (pure_eq_ok.1 h)
      exact ⟨u, rfl, ha⟩
  | move l c' =>
      simp only [bind_eq_ok, pure_eq_ok, Prod.mk.injEq] at h
      obtain ⟨index, hpush, rfl, rfl⟩ := h
      exact ⟨u, bind_eq_ok.2 ⟨index, hpush, rfl⟩, ha⟩
  | force =>
      simp only [bind_eq_ok, pure_eq_ok, Prod.mk.injEq] at h
      obtain ⟨ls, hls, t, hforce, rfl, rfl⟩ := h
      obtain ⟨u', hu, ha'⟩ := ha.forceFalse hforce
      exact ⟨u', bind_eq_ok.2 ⟨ls, hls, bind_eq_ok.2 ⟨u', hu, rfl⟩⟩, ha'⟩
  | fail =>
      obtain ⟨rfl, rfl⟩ := Prod.mk.inj (pure_eq_ok.1 h)
      exact ⟨u, rfl, ha⟩

/-- Visiting a clause, once it is turned and its first literal read. -/
theorem alike_of_settleClause {first : Lit} {satisfied : Bool} (ha : old.Alike n.trail u)
    (h : n.settleClause w c first satisfied = .ok (v, n')) :
    ∃ u', settleClause { n with trail := u } w c first satisfied =
      .ok (v, { n' with trail := u' }) ∧ old.Alike n'.trail u' := by
  simp only [settleClause, ha.cleared.isFalse_eq]
  rw [settleClause] at h
  split at h
  next hyes =>
      obtain ⟨rfl, rfl⟩ := Prod.mk.inj (pure_eq_ok.1 h)
      exact ⟨u, if_pos hyes, ha⟩
  next hno =>
      rw [if_neg hno]
      rw [bind_eq_ok] at h
      obtain ⟨found, hpull, h⟩ := h
      -- the literal that is pulled is found by values, so it is the same on both trails
      rw [hpull, ok_bind]
      cases found with
      | some x =>
          simp only [bind_eq_ok, pure_eq_ok, Prod.mk.injEq] at h
          obtain ⟨index, hpush, rfl, rfl⟩ := h
          exact ⟨u, bind_eq_ok.2 ⟨index, hpush, rfl⟩, ha⟩
      | none =>
          rw [bind_eq_ok] at h
          obtain ⟨b, hb, h⟩ := h
          simp only at hb ⊢
          rw [hb, ok_bind]
          cases b with
          | true =>
              obtain ⟨rfl, rfl⟩ := Prod.mk.inj (pure_eq_ok.1 h)
              exact ⟨u, rfl, ha⟩
          | false =>
              simp only [Bool.false_eq_true, if_false, bind_eq_ok, pure_eq_ok, Prod.mk.injEq] at h
              obtain ⟨t, hassign, rfl, rfl⟩ := h
              obtain ⟨u', hu, ha'⟩ := ha.assign hassign
              exact ⟨u', bind_eq_ok.2 ⟨u', hu, rfl⟩, ha'⟩

/-- Visiting a clause. -/
theorem alike_of_visitClause (ha : old.Alike n.trail u)
    (h : n.visitClause p w c = .ok (v, n')) :
    ∃ u', visitClause { n with trail := u } p w c = .ok (v, { n' with trail := u' }) ∧
      old.Alike n'.trail u' := by
  simp only [visitClause_eq_bind, ha.cleared.isTrue_eq, bind_eq_ok] at h ⊢
  obtain ⟨l₀, hl₀, c₁, hc₁, first, hfirst, satisfied, hsat, h⟩ := h
  obtain ⟨u', hu, ha'⟩ := alike_of_settleClause ha h
  exact ⟨u', ⟨l₀, hl₀, c₁, hc₁, first, hfirst, satisfied, hsat, hu⟩, ha'⟩

/-- Visiting a constraint that is stored. -/
theorem alike_of_visitStored (ha : old.Alike n.trail u) (h : n.visitStored p w = .ok (v, n')) :
    ∃ u', visitStored { n with trail := u } p w = .ok (v, { n' with trail := u' }) ∧
      old.Alike n'.trail u' := by
  unfold visitStored at h ⊢
  cases hc : n.store.get? w.handle with
  | none =>
      rw [hc] at h
      obtain ⟨rfl, rfl⟩ := Prod.mk.inj (pure_eq_ok.1 h)
      exact ⟨u, rfl, ha⟩
  | some c =>
      simp only [hc] at h ⊢
      split at h
      next hat =>
          obtain ⟨u', hu, ha'⟩ := alike_of_visitAtMost ha h
          exact ⟨u', (if_pos hat).trans hu, ha'⟩
      next hat =>
          obtain ⟨u', hu, ha'⟩ := alike_of_visitClause ha h
          exact ⟨u', (if_neg hat).trans hu, ha'⟩

/-- Visiting a watcher, whose blocker may settle it. -/
theorem alike_of_visit (ha : old.Alike n.trail u) (h : n.visit p w = .ok (v, n')) :
    ∃ u', visit { n with trail := u } p w = .ok (v, { n' with trail := u' }) ∧
      old.Alike n'.trail u' := by
  have hstored : n.visitStored p w = .ok (v, n') →
      ∃ u', visitStored { n with trail := u } p w = .ok (v, { n' with trail := u' }) ∧
        old.Alike n'.trail u' := alike_of_visitStored ha
  simp only [visit, ha.cleared.isTrue_eq] at h ⊢
  cases hb : w.blocker with
  | none =>
      simp only [hb] at h ⊢
      exact hstored h
  | some b =>
      simp only [hb, bind_eq_ok] at h ⊢
      obtain ⟨blocked, hblocked, h⟩ := h
      cases blocked with
      | true =>
          obtain ⟨rfl, rfl⟩ := Prod.mk.inj (pure_eq_ok.1 h)
          exact ⟨u, ⟨true, hblocked, rfl⟩, ha⟩
      | false =>
          obtain ⟨u', hu, ha'⟩ := hstored h
          exact ⟨u', ⟨false, hblocked, hu⟩, ha'⟩

/-- Going through a line. -/
theorem alike_of_visitAll : ∀ {line : List Watcher} {kept ws : Array Watcher}
    {failed : Option Handle} {n n' : Network} {u : Trail}, old.Alike n.trail u →
    visitAll p line kept n = .ok (ws, failed, n') →
    ∃ u', visitAll p line kept { n with trail := u } = .ok (ws, failed, { n' with trail := u' }) ∧
      old.Alike n'.trail u' := by
  intro line
  induction line with
  | nil =>
      intro kept ws failed n n' u ha h
      simp only [visitAll, pure_eq_ok, Prod.mk.injEq] at h
      obtain ⟨rfl, rfl, rfl⟩ := h
      exact ⟨u, rfl, ha⟩
  | cons w line ih =>
      intro kept ws failed n n' u ha h
      simp only [visitAll, bind_eq_ok] at h ⊢
      obtain ⟨⟨v, n₁⟩, hvisit, h⟩ := h
      obtain ⟨u₁, hu₁, ha₁⟩ := alike_of_visit ha hvisit
      cases v with
      | stay x =>
          obtain ⟨u', hu, ha'⟩ := ih ha₁ h
          exact ⟨u', ⟨_, hu₁, hu⟩, ha'⟩
      | leave =>
          obtain ⟨u', hu, ha'⟩ := ih ha₁ h
          exact ⟨u', ⟨_, hu₁, hu⟩, ha'⟩
      | fail x =>
          simp only [pure_eq_ok, Prod.mk.injEq] at h
          obtain ⟨rfl, rfl, rfl⟩ := h
          exact ⟨u₁, ⟨_, hu₁, rfl⟩, ha₁⟩

/-! ## The queue

The fuel is the same in both runs, since the number of variables is. -/

/-- Propagating one literal. -/
theorem alike_of_propagateLit {failed : Option Handle} (ha : old.Alike n.trail u)
    (h : n.propagateLit p = .ok (failed, n')) :
    ∃ u', propagateLit { n with trail := u } p = .ok (failed, { n' with trail := u' }) ∧
      old.Alike n'.trail u' := by
  simp only [propagateLit, bind_eq_ok, pure_eq_ok, Prod.mk.injEq] at h
  obtain ⟨⟨ws, index⟩, htake, ⟨kept, failed', n₁⟩, hall, index', hrestore, rfl, rfl⟩ := h
  obtain ⟨u', hu, ha'⟩ := alike_of_visitAll (n := { n with index }) ha hall
  exact ⟨u', bind_eq_ok.2 ⟨_, htake, bind_eq_ok.2 ⟨_, hu, bind_eq_ok.2 ⟨_, hrestore, rfl⟩⟩⟩, ha'⟩

/-- Emptying the queue. -/
theorem alike_of_propagateWithin : ∀ {fuel : Nat} {n n' : Network} {u : Trail}
    {failed : Option Handle}, old.Alike n.trail u → n.propagateWithin fuel = .ok (failed, n') →
    ∃ u', propagateWithin fuel { n with trail := u } = .ok (failed, { n' with trail := u' }) ∧
      old.Alike n'.trail u' := by
  intro fuel
  induction fuel with
  | zero =>
      intro n n' u failed _ h
      exact absurd h throw_ne_ok.1
  | succ fuel ih =>
      intro n n' u failed ha h
      rw [propagateWithin] at h ⊢
      -- the same literal is next on both trails
      have hdequeue : u.dequeue = n.trail.dequeue.map fun x =>
          (x.1, { u with head := u.head + 1 }) := by
        rw [Trail.dequeue, Trail.dequeue, ha.cleared.lits, ha.cleared.head, Option.map_map]
        rfl
      cases hnext : n.trail.dequeue with
      | none =>
          simp only [hnext, hdequeue, Option.map_none] at h ⊢
          obtain ⟨rfl, rfl⟩ := Prod.mk.inj (pure_eq_ok.1 h)
          exact ⟨u, rfl, ha⟩
      | some x =>
          obtain ⟨p, t⟩ := x
          simp only [hnext, hdequeue, Option.map_some, bind_eq_ok] at h ⊢
          obtain ⟨-, rfl⟩ := Trail.dequeue_eq_some hnext
          obtain ⟨⟨failed₁, n₁⟩, hlit, h⟩ := h
          have hnext : old.Alike { n.trail with head := n.trail.head + 1 }
              { u with head := u.head + 1 } := by
            rw [ha.cleared.head]
            exact ha.withHead _
          obtain ⟨u₁, hu₁, ha₁⟩ := alike_of_propagateLit (n := { n with
            trail := { n.trail with head := n.trail.head + 1 }
            propagations := n.propagations + 1 }) hnext hlit
          cases failed₁ with
          | some a =>
              obtain ⟨rfl, rfl⟩ := Prod.mk.inj (pure_eq_ok.1 h)
              have hall : old.Alike n₁.trail.dequeueAll u₁.dequeueAll := by
                rw [Trail.dequeueAll, Trail.dequeueAll,
                  show u₁.lits.size = n₁.trail.lits.size from congrArg _ ha₁.cleared.lits]
                exact ha₁.withHead _
              exact ⟨_, ⟨_, hu₁, rfl⟩, hall⟩
          | none =>
              obtain ⟨u', hu, ha'⟩ := ih ha₁ h
              exact ⟨u', ⟨_, hu₁, hu⟩, ha'⟩

/-- A network whose trail has forgotten some reasons is propagated as it would be with them, and
new literals get the same reasons. -/
theorem alike_of_propagate {failed : Option Handle} (hc : n.trail.Cleared u)
    (h : n.propagate = .ok (failed, n')) :
    ∃ u', propagate { n with trail := u } = .ok (failed, { n' with trail := u' }) ∧
      n.trail.Alike n'.trail u' := by
  rw [propagate] at h ⊢
  rw [show Trail.varCount u = n.trail.varCount from hc.varCount]
  exact alike_of_propagateWithin ⟨hc, fun _ => Or.inl, fun _ => Or.inl rfl⟩ h

end Network

end CardSat
