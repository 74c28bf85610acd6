import CardSat.Proofs.Network.Aligned
import CardSat.Proofs.Propagation.Returning

set_option autoImplicit false

/-! # What propagation looks at

`Network.Visits` lists the visits that a propagation makes: those of the watchers of each waiting
literal, until a constraint fails. In a tended and aligned network every watcher that is visited
watches a stored constraint, and its blocker is a literal of a known variable.

That a propagation returns says that no lookup fails which it makes. The statement here is about the
lookups themselves, and also about those that would be made if the blocker had another value:
whatever watcher a propagation comes to, what it names is there. For this the states in the middle
of a propagation are needed, and they are given as a relation that follows the recursion of
`propagateWithin` and `visitAll`.
-/

namespace CardSat

namespace Network

variable {n n' m : Network} {dead : Lit → Prop} {p : Lit} {w x : Watcher} {rest kept : List Watcher}
  {t u : Trail} {failed : Option Handle}

/-- The line of `p` is gone through from the network `n` on. The network has become `m` when its
watcher `x` is visited. -/
inductive LineVisits (p : Lit) : List Watcher → Network → Network → Watcher → Prop
  | here {x : Watcher} {rest : List Watcher} {n : Network} : LineVisits p (x :: rest) n n x
  | later {w x : Watcher} {rest : List Watcher} {n n₁ m : Network} {v : Visit}
      (h : n.visit p w = .ok (v, n₁)) (hgo : ∀ y, v ≠ .fail y) (hl : LineVisits p rest n₁ m x) :
      LineVisits p (w :: rest) n m x

/-- The network `n` is propagated. It has become `m` when the watcher `x` is visited. -/
inductive Visits : Network → Network → Watcher → Prop
  | here {n m : Network} {p : Lit} {t : Trail} {ws : Array Watcher} {index : WatchIndex}
      {x : Watcher} (hnext : n.trail.dequeue = some (p, t))
      (htake : n.index.take n.store p = .ok (ws, index))
      (h : LineVisits p ws.toList
        { n with trail := t, propagations := n.propagations + 1, index } m x) : Visits n m x
  | later {n n₁ m : Network} {p : Lit} {t : Trail} {x : Watcher}
      (hnext : n.trail.dequeue = some (p, t))
      (hlit : propagateLit { n with trail := t, propagations := n.propagations + 1 } p =
        .ok (none, n₁))
      (h : Visits n₁ m x) : Visits n m x

/-- A watcher can be visited: its constraint is stored, and its blocker is known. -/
def Visitable (m : Network) (x : Watcher) : Prop :=
  (∃ c, m.store.get? x.handle = some c) ∧
    ∀ b, x.blocker = some b → b.var.index < m.trail.varCount

/-! ## Tended networks -/

/-- In the worlds of no interest everything is sound. -/
theorem sound_false (n : Network) : n.Sound fun _ => False := ⟨by simp, by simp⟩

/-- A propagation leaves the network tended, also where some reasons explain nothing. -/
theorem tended_of_propagate (ha : n.Aligned dead n.index.line) (ht : n.Tended)
    (h : n.propagate = .ok (failed, n')) : n'.Tended := by
  obtain ⟨u, hc, hs⟩ := ha
  obtain ⟨u', hu, ha'⟩ := alike_of_propagate hc h
  obtain ⟨failed', n'', hn'', ht''⟩ :=
    returns_of_propagate hs (sound_false _) (ht.of_trail hc.varCount)
  obtain ⟨rfl, rfl⟩ := Prod.mk.inj (Except.ok.inj (hu.symm.trans hn''))
  exact ht''.of_trail ha'.cleared.varCount.symm

/-! ## Visits -/

/-- The watchers on the line of one literal. What is known in between is the invariant of the scan,
for the network with some reasons forgotten. -/
theorem visitable_of_lineVisits (h : LineVisits p rest n m x) : ∀ {kept : List Watcher} {u : Trail},
    n.trail.Cleared u →
    Scan dead (fun _ => True) (fun _ => False) p (kept ++ rest) rest { n with trail := u } →
    n.Tended → (∀ y ∈ rest, ∃ c, n.store.get? y.handle = some c) → m.Visitable x := by
  induction h with
  | @here x rest n =>
      intro kept u hc hs _ hlive
      obtain ⟨c, hget⟩ := hlive x (by simp)
      have ha : n.Aligned dead (Function.update n.index.line p (kept ++ x :: rest)) :=
        ⟨u, hc, hs.sane⟩
      refine ⟨⟨c, hget⟩, fun b hb => ha.known_of_blocker (l := p) ?_ hget hb⟩
      rw [Function.update_self]
      simp
  | @later w x rest n n₁ m v h hgo _ ih =>
      intro kept u hc hs ht hlive
      -- the same visit without the reasons that are not relied on
      obtain ⟨u₁, hu₁, ha₁⟩ := alike_of_visit
        (⟨hc, fun _ => Or.inl, fun _ => Or.inl rfl⟩ : n.trail.Alike n.trail u) h
      obtain ⟨hv, hm⟩ := visited_of_visit hs hu₁
      obtain ⟨v', n₁', hvisit', ht₁, -⟩ :=
        handled_of_visit hs (ht.of_trail hc.varCount) (hlive w (by simp))
      obtain ⟨rfl, rfl⟩ := Prod.mk.inj (Except.ok.inj (hu₁.symm.trans hvisit'))
      have ht₁' : n₁.Tended := ht₁.of_trail ha₁.cleared.varCount.symm
      have hlive₁ : ∀ y ∈ rest, ∃ c, n₁.store.get? y.handle = some c := fun y hy => by
        obtain ⟨c, hget⟩ := hlive y (List.mem_cons_of_mem _ hy)
        exact (hm.store.forth _ c hget).imp fun _ hc' => hc'.1
      cases v with
      | stay y => exact @ih (kept ++ [y]) _ ha₁.cleared (by simpa [Visited] using hv) ht₁' hlive₁
      | leave => exact ih ha₁.cleared hv ht₁' hlive₁
      | fail y => exact absurd rfl (hgo y)

/-- The next literal is taken off the queue of an aligned network. -/
theorem sane_of_dequeue (hc : n.trail.Cleared u) (hs : Sane { n with trail := u } dead n.index.line)
    (hnext : n.trail.dequeue = some (p, t)) :
    ∃ u₀, t.Cleared u₀ ∧
      Sane { n with trail := u₀, propagations := n.propagations + 1 } dead n.index.line ∧
      p ∈ u₀.done ∧ u₀.levelOf p.var = u₀.level := by
  obtain ⟨hp, rfl⟩ := Trail.dequeue_eq_some hnext
  rw [← show u.lits = n.trail.lits from hc.lits, ← show u.head = n.trail.head from hc.head] at hp
  have hlt : u.head < u.lits.size := by simpa using (List.getElem?_eq_some_iff.1 hp).1
  refine ⟨{ u with head := u.head + 1 }, ?_,
    { hs.withHead (k := u.head + 1) (Nat.le_succ _) hlt with }, ?_, ?_⟩
  · rw [← show u.head = n.trail.head from hc.head]
    exact hc.withHead _
  · simp only [Trail.done, List.take_add_one, hp, Option.toList_some]
    simp
  · exact levelOf_of_waiting (t := u) hs.trail hs.queued hp (Nat.le_refl _)

/-- What a propagation looks at is there. -/
theorem visitable_of_visits (h : n.Visits m x) (ha : n.Aligned dead n.index.line) (ht : n.Tended) :
    m.Visitable x := by
  induction h with
  | @here n m p t ws index x hnext htake h =>
      obtain ⟨u, hc, hs⟩ := ha
      obtain ⟨u₀, hc₀, hs₀, hdone, hlevel⟩ := sane_of_dequeue hc hs hnext
      have ht₀ : Tended { n with trail := t, propagations := n.propagations + 1 } :=
        ⟨(Trail.dequeue_eq_some hnext).2 ▸ ht.covers, ht.clean⟩
      obtain ⟨ht₁, -, hlive⟩ := ht₀.take htake
      refine @visitable_of_lineVisits _ _ dead _ _ _ h [] _ hc₀ ⟨hs₀.take htake, ?_, hdone, hlevel,
        sound_false _, fun _ _ _ _ _ _ => Or.inl (Or.inl trivial)⟩ ht₁ hlive
      simp only [(WatchIndex.take_eq_ok htake).1, Function.update_self]
  | @later n n₁ m p t x hnext hlit h ih =>
      obtain ⟨u, hc, hs⟩ := ha
      obtain ⟨u₀, hc₀, hs₀, hdone, hlevel⟩ := sane_of_dequeue hc hs hnext
      have ht₀ : Tended { n with trail := u₀, propagations := n.propagations + 1 } :=
        (⟨(Trail.dequeue_eq_some hnext).2 ▸ ht.covers, ht.clean⟩ :
          Tended { n with trail := t, propagations := n.propagations + 1 }).of_trail hc₀.varCount
      obtain ⟨u₁, hu₁, ha₁⟩ := alike_of_propagateLit
        (⟨hc₀, fun _ => Or.inl, fun _ => Or.inl rfl⟩ : t.Alike t u₀) hlit
      obtain ⟨failed, n', hn', ht'⟩ :=
        returns_of_propagateLit hs₀ (sound_false _) ht₀ hdone hlevel
      obtain ⟨rfl, rfl⟩ := Prod.mk.inj (Except.ok.inj (hu₁.symm.trans hn'))
      obtain ⟨hpr, -⟩ : Propagated dead (fun _ => True) _ _ _ _ ∧ _ :=
        propagated_of_propagateLit hs₀ (sound_false _) hdone hlevel
          (fun _ _ _ _ _ _ => Or.inl (Or.inl trivial)) hu₁
      exact ih ⟨u₁, ha₁.cleared, hpr.sane⟩ (ht'.of_trail ha₁.cleared.varCount.symm)

end Network

end CardSat
