import CardSat.Proofs.Network.Removal
import CardSat.Proofs.Network.Storing
import CardSat.Proofs.Propagation.Returning

set_option autoImplicit false

/-! # Where blockers come from

Every watcher of a clause has a blocker. It is a literal of the clause or was one: when a clause
loses literals, its watchers may keep them as blockers. `Network.Traced` says so, where `had h b` is
to mean that `b` has been a literal of the constraint under `h`. Propagation gives the watchers of a
clause no blockers but its literals.

The parameter `had` is filled in by who knows the past of the clause (`Proofs/Watches`). Here it
only has to be kept: it may grow, and where clauses lose literals it has to remember them.

The lemmas follow the definitions of propagation once more. They are apart from the invariants of a
scan, since they need none of them: what a watcher is given as a blocker is read from the clause at
that moment.
-/

namespace CardSat

/-- What a scan moves a watch to is an unwatched literal. -/
theorem Constraint.pulled_of_atMostScan {c c' : Constraint} {t : Trail} {p l : Lit} :
    ∀ {ls : List Lit} {i falses trues : Nat},
      c.atMostScan t p ls i falses trues = .ok (.move l c') → ∃ place, c.Pulled place l c' := by
  intro ls
  induction ls with
  | nil =>
      intro i falses trues h
      have h' := pure_eq_ok.1 h
      split at h'
      · cases h'
      · cases h'
  | cons a ls ih =>
      intro i falses trues h
      rw [atMostScan, bind_eq_ok] at h
      obtain ⟨r, -, h⟩ := h
      cases r with
      | unset => exact ih h
      | no =>
          simp only at h
          split at h
          · cases pure_eq_ok.1 h
          · exact ih h
      | yes =>
          simp only at h
          split at h
          next => cases pure_eq_ok.1 h
          next =>
              split at h
              next =>
                  -- the scan ends where a literal from behind is pulled to the place of a true one
                  obtain ⟨found, hpull, h⟩ := bind_eq_ok.1 h
                  cases found with
                  | none => exact ih h
                  | some x =>
                      obtain ⟨rfl, rfl⟩ := AtMostChange.move.inj (pure_eq_ok.1 h)
                      exact ⟨i, (pull_eq_some hpull).1⟩
              next => exact ih h

namespace WatchIndex

variable {w w' : WatchIndex} {l m : Lit} {x y : Watcher} {c : Constraint} {h : Handle}

/-- A line gets one watcher. -/
theorem mem_line_of_push (hp : w.push l y = .ok w') (hx : x ∈ w'.line m) :
    x ∈ w.line m ∨ x = y := by
  rw [line_push hp] at hx
  by_cases hm : m = l
  · subst hm
    rw [Function.update_self] at hx
    exact (List.mem_append.1 hx).imp_right List.mem_singleton.1
  · rw [Function.update_of_ne hm] at hx
    exact Or.inl hx

/-- A clause that is put on watch gives its watchers blockers. -/
theorem mem_line_of_watch (hw : w.watch c h = .ok w') (hx : x ∈ w'.line l) :
    x ∈ w.line l ∨ x.handle = h ∧
      (c.isAtMost = false → ∃ b ∈ c.lits.toList, x.blocker = some b) := by
  simp only [watch] at hw
  split at hw
  next ha =>
      obtain ⟨ls, -, hw⟩ := bind_eq_ok.1 hw
      rw [line_foldlM_push hw] at hx
      refine (List.mem_append.1 hx).imp_right fun hx => ?_
      rw [List.eq_of_mem_replicate hx]
      exact ⟨rfl, fun hno => by rw [ha] at hno; cases hno⟩
  next ha =>
      simp only [bind_eq_ok] at hw
      obtain ⟨⟨a, b⟩, hpair, w₁, hw₁, hw₂⟩ := hw
      -- each of the two watchers has the other literal as its blocker
      have hwatched := Constraint.watchedLits_of_headPair (by simpa using ha) hpair
      have hmem : ∀ m ∈ [a, b], m ∈ c.lits.toList := fun m hm =>
        Constraint.mem_of_mem_watchedLits (hwatched ▸ hm)
      rcases mem_line_of_push hw₂ hx with hx | rfl
      · rcases mem_line_of_push hw₁ hx with hx | rfl
        · exact Or.inl hx
        · exact Or.inr ⟨rfl, fun _ => ⟨b, hmem b (by simp), rfl⟩⟩
      · exact Or.inr ⟨rfl, fun _ => ⟨a, hmem a (by simp), rfl⟩⟩

end WatchIndex

/-- The blocker of the watcher is or was a literal of the clause that it watches. -/
def Watcher.Traced (had : Handle → Lit → Prop) (store : Store) (x : Watcher) : Prop :=
  ∀ c, store.get? x.handle = some c → c.isAtMost = false →
    ∃ b, x.blocker = some b ∧ (b ∈ c.lits.toList ∨ had x.handle b)

namespace Watcher.Traced

variable {had had' : Handle → Lit → Prop} {store store' : Store} {x : Watcher} {c : Constraint}

/-- More may be remembered. -/
theorem mono (ht : x.Traced had store) (hsub : ∀ h b, had h b → had' h b) : x.Traced had' store :=
  fun c hc ha => (ht c hc ha).imp fun _ hb => hb.imp_right fun hor => hor.imp_right (hsub _ _)

/-- Rearranging a clause leaves its literals. -/
theorem same (ht : x.Traced had store) (hs : store.Same store') : x.Traced had store' := by
  intro c' hc' ha
  obtain ⟨c, hc, hsame⟩ := hs.back _ c' hc'
  obtain ⟨b, hb, hor⟩ := ht c hc (hsame.isAtMost_eq.symm.trans ha)
  exact ⟨b, hb, hor.imp_left hsame.mem_iff.2⟩

/-- The blocker is a literal of the clause. -/
theorem of_mem {b : Lit} (hc : store.get? x.handle = some c) (hb : x.blocker = some b)
    (hmem : b ∈ c.lits.toList) : x.Traced had store := by
  intro d hd _
  obtain rfl := Option.some.inj (hc.symm.trans hd)
  exact ⟨b, hb, Or.inl hmem⟩

end Watcher.Traced

namespace Network

variable {had had' : Handle → Lit → Prop} {n n' : Network} {p l : Lit} {w x : Watcher}
  {c : Constraint} {v : Visit} {h : Handle} {index : WatchIndex}

/-- The blockers of all watchers of clauses are or were literals of these. -/
def Traced (had : Handle → Lit → Prop) (n : Network) : Prop :=
  ∀ l, ∀ x ∈ n.index.line l, x.Traced had n.store

/-! ## Visits

A visit changes at most one watcher and one constraint. The watcher that stays, or that moves to
another line, gets the first literal of the clause as its blocker. -/

/-- Constraints were rearranged, and of the watchers there are now, those that are new are
traced. -/
structure KeepsTraces (had : Handle → Lit → Prop) (n n' : Network) : Prop where
  store : n.store.Same n'.store
  line : ∀ l, ∀ x ∈ n'.index.line l, x ∈ n.index.line l ∨ x.Traced had n'.store

namespace KeepsTraces

/-- One step after the other. -/
theorem trans {n'' : Network} (h : KeepsTraces had n n') (h' : KeepsTraces had n' n'') :
    KeepsTraces had n n'' where
  store := h.store.trans h'.store
  line l x hx := by
    rcases h'.line l x hx with hx | hx
    · exact (h.line l x hx).imp_right fun ht => ht.same h'.store
    · exact Or.inr hx

/-- The watchers on the lines are traced again. -/
theorem traced (h : KeepsTraces had n n') (ht : n.Traced had) : n'.Traced had := fun l x hx =>
  (h.line l x hx).elim (fun hold => (ht l x hold).same h.store) id

/-- A constraint was rearranged. -/
theorem put {c' : Constraint} (hc : n.store.get? h = some c) (hs : c.Same c') :
    KeepsTraces had n { n with store := n.store.put h c' } :=
  ⟨.put hc hs, fun _ _ => Or.inl⟩

/-- A traced watcher is added to a line. -/
theorem push (hp : n.index.push l x = .ok index) (hx : x.Traced had n.store) :
    KeepsTraces had n { n with index } where
  store := .refl _
  line m y hy := (WatchIndex.mem_line_of_push hp hy).imp_right fun heq => by
    rw [heq]
    exact hx

end KeepsTraces

/-- What a visit to a traced watcher does. -/
def VisitTraces (had : Handle → Lit → Prop) (n : Network) (v : Visit) (n' : Network) : Prop :=
  KeepsTraces had n n' ∧ ∀ y, v.watcher? = some y → y.Traced had n'.store

/-- Watchers of at-most constraints need no blockers. -/
theorem traces_of_visitAtMost (hw : w.Traced had n.store) (hc : n.store.get? w.handle = some c)
    (h : n.visitAtMost p w c = .ok (v, n')) : VisitTraces had n v n' := by
  simp only [visitAtMost, bind_eq_ok] at h
  obtain ⟨change, hchange, h⟩ := h
  have hrefl : ∀ t : Trail, KeepsTraces had n { n with trail := t } :=
    fun _ => ⟨.refl _, fun _ _ => Or.inl⟩
  cases change with
  | keep =>
      obtain ⟨rfl, rfl⟩ := Prod.mk.inj (pure_eq_ok.1 h)
      exact ⟨hrefl _, fun _ hy => Option.some.inj hy ▸ hw⟩
  | move l c' =>
      simp only [bind_eq_ok, pure_eq_ok, Prod.mk.injEq] at h
      obtain ⟨index, hpush, rfl, rfl⟩ := h
      obtain ⟨ls, -, hscan⟩ := bind_eq_ok.1 hchange
      obtain ⟨place, hpull⟩ := Constraint.pulled_of_atMostScan hscan
      have hput : KeepsTraces had n { n with store := n.store.put w.handle c' } :=
        .put hc hpull.same
      exact ⟨hput.trans (.push hpush (hw.same hput.store)), fun _ hy => by cases hy⟩
  | force =>
      simp only [bind_eq_ok, pure_eq_ok, Prod.mk.injEq] at h
      obtain ⟨ls, -, t, -, rfl, rfl⟩ := h
      exact ⟨hrefl t, fun _ hy => Option.some.inj hy ▸ hw⟩
  | fail =>
      obtain ⟨rfl, rfl⟩ := Prod.mk.inj (pure_eq_ok.1 h)
      exact ⟨hrefl _, fun _ hy => Option.some.inj hy ▸ hw⟩

/-- A visit to a clause gives the watcher its first literal. -/
theorem traces_of_visitClause (hc : n.store.get? w.handle = some c)
    (h : n.visitClause p w c = .ok (v, n')) : VisitTraces had n v n' := by
  obtain ⟨l₀, c₁, first, satisfied, -, hc₁, hfirst, -, h⟩ := visitClause_eq_ok h
  have hsame : c.Same c₁ := by
    split at hc₁
    · exact Constraint.same_swap hc₁
    · exact pure_eq_ok.1 hc₁ ▸ .refl c
  have hmem : first ∈ c₁.lits.toList := by
    rw [← Array.getElem?_toList] at hfirst
    exact List.mem_of_getElem? hfirst
  have hput : KeepsTraces had n { n with store := n.store.put w.handle c₁ } := .put hc hsame
  have hget : (n.store.put w.handle c₁).get? w.handle = some c₁ := by
    rw [Store.get?_put hc, if_pos rfl]
  -- whatever becomes of the watcher, its new blocker is the first literal
  have hnew : Watcher.Traced had (n.store.put w.handle c₁) ⟨w.handle, some first⟩ :=
    .of_mem hget rfl hmem
  rw [settleClause] at h
  split at h
  next =>
      obtain ⟨rfl, rfl⟩ := Prod.mk.inj (pure_eq_ok.1 h)
      exact ⟨hput, fun _ hy => Option.some.inj hy ▸ hnew⟩
  next =>
      obtain ⟨found, hfound, h⟩ := bind_eq_ok.1 h
      cases found with
      | some q =>
          simp only [bind_eq_ok, pure_eq_ok, Prod.mk.injEq] at h
          obtain ⟨index, hpush, rfl, rfl⟩ := h
          obtain ⟨l, c₂⟩ := q
          have hpull := (Constraint.pull_eq_some hfound).1
          have hput₂ : KeepsTraces had n { n with store := n.store.put w.handle c₂ } :=
            .put hc (hsame.trans hpull.same)
          refine ⟨hput₂.trans (.push hpush (.of_mem ?_ rfl (hpull.same.mem_iff.2 hmem))),
            fun _ hy => by cases hy⟩
          exact (Store.get?_put hc _).trans (if_pos rfl)
      | none =>
          obtain ⟨b, -, h⟩ := bind_eq_ok.1 h
          cases b with
          | true =>
              obtain ⟨rfl, rfl⟩ := Prod.mk.inj (pure_eq_ok.1 h)
              exact ⟨hput, fun _ hy => Option.some.inj hy ▸ hnew⟩
          | false =>
              simp only [Bool.false_eq_true, if_false, bind_eq_ok, pure_eq_ok, Prod.mk.injEq] at h
              obtain ⟨t, -, rfl, rfl⟩ := h
              exact ⟨⟨hput.store, hput.line⟩, fun _ hy => Option.some.inj hy ▸ hnew⟩

/-- A visit that ends with the blocker leaves the watcher as it is. -/
theorem traces_of_visit (hw : w.Traced had n.store) (h : n.visit p w = .ok (v, n')) :
    VisitTraces had n v n' := by
  rcases visit_eq_ok h with ⟨b, -, -, heq⟩ | ⟨-, heq⟩ | ⟨c, hc, h⟩
  · obtain ⟨rfl, rfl⟩ := Prod.mk.inj heq
    exact ⟨⟨.refl _, fun _ _ => Or.inl⟩, fun _ hy => Option.some.inj hy ▸ hw⟩
  · obtain ⟨rfl, rfl⟩ := Prod.mk.inj heq
    exact ⟨⟨.refl _, fun _ _ => Or.inl⟩, fun _ hy => by cases hy⟩
  · split at h
    next => exact traces_of_visitAtMost hw hc h
    next => exact traces_of_visitClause hc h

/-! ## Lines

While a line is gone through, its watchers are out of the index; those that stay are traced, and so
are those that are not visited. -/

/-- Going through a line keeps the traces. -/
theorem traces_of_visitAll : ∀ {line : List Watcher} {kept ws : Array Watcher}
    {failed : Option Handle} {n n' : Network},
    (∀ x ∈ kept.toList ++ line, x.Traced had n.store) →
    visitAll p line kept n = .ok (ws, failed, n') →
    KeepsTraces had n n' ∧ ∀ x ∈ ws.toList, x.Traced had n'.store := by
  intro line
  induction line with
  | nil =>
      intro kept ws failed n n' ht h
      simp only [visitAll, pure_eq_ok, Prod.mk.injEq] at h
      obtain ⟨rfl, rfl, rfl⟩ := h
      exact ⟨⟨.refl _, fun _ _ => Or.inl⟩, by simpa using ht⟩
  | cons w line ih =>
      intro kept ws failed n n' ht h
      simp only [visitAll, bind_eq_ok] at h
      obtain ⟨⟨v, n₁⟩, hvisit, h⟩ := h
      obtain ⟨hk, hstays⟩ := traces_of_visit (ht w (by simp)) hvisit
      -- the watchers that stay and those still to come are traced after the visit, too
      have hold : ∀ x ∈ kept.toList ++ line, x.Traced had n₁.store := fun x hx => by
        refine (ht x ?_).same hk.store
        rw [List.mem_append, List.mem_cons]
        exact (List.mem_append.1 hx).imp_right Or.inr
      have hnew : ∀ y, v.watcher? = some y →
          ∀ x ∈ (kept.push y).toList ++ line, x.Traced had n₁.store := fun y hy x hx => by
        rw [Array.toList_push, List.append_assoc, List.singleton_append] at hx
        rcases List.mem_append.1 hx with hx | hx
        · exact hold x (List.mem_append_left _ hx)
        · rcases List.mem_cons.1 hx with rfl | hx
          · exact hstays _ hy
          · exact hold x (List.mem_append_right _ hx)
      cases v with
      | stay y =>
          obtain ⟨hk', hws⟩ := ih (hnew y rfl) h
          exact ⟨hk.trans hk', hws⟩
      | leave =>
          obtain ⟨hk', hws⟩ := ih hold h
          exact ⟨hk.trans hk', hws⟩
      | fail y =>
          simp only [pure_eq_ok, Prod.mk.injEq] at h
          obtain ⟨rfl, rfl, rfl⟩ := h
          exact ⟨hk, by simpa using hnew y rfl⟩

/-- The line is taken out, gone through, and put back. -/
theorem traced_of_propagateLit {failed : Option Handle} (ht : n.Traced had)
    (h : n.propagateLit p = .ok (failed, n')) : n'.Traced had := by
  simp only [propagateLit, bind_eq_ok, pure_eq_ok, Prod.mk.injEq] at h
  obtain ⟨⟨ws, index⟩, htake, ⟨kept, failed', n₁⟩, hall, index', hrestore, rfl, rfl⟩ := h
  obtain ⟨hline, hsub, -⟩ := WatchIndex.take_eq_ok htake
  -- while the line of `p` is visited, the index has an empty one in its place
  have ht₀ : Traced had { n with index } := fun l x hx => by
    simp only [hline] at hx
    by_cases hl : l = p
    · subst hl
      rw [Function.update_self] at hx
      cases hx
    · rw [Function.update_of_ne hl] at hx
      exact ht l x hx
  have hws : ∀ x ∈ #[].toList ++ ws.toList, x.Traced had n.store := fun x hx =>
    ht p x (hsub.subset (by simpa using hx))
  obtain ⟨hk, hkept⟩ := traces_of_visitAll (n := { n with index }) hws hall
  intro l x hx
  simp only [WatchIndex.line_restore hrestore] at hx
  by_cases hl : l = p
  · subst hl
    rw [Function.update_self] at hx
    exact hkept x hx
  · rw [Function.update_of_ne hl] at hx
    exact hk.traced ht₀ l x hx

/-- The queue is emptied literal by literal. -/
theorem traced_of_propagateWithin : ∀ {fuel : Nat} {n n' : Network} {failed : Option Handle},
    n.Traced had → n.propagateWithin fuel = .ok (failed, n') → n'.Traced had := by
  intro fuel
  induction fuel with
  | zero =>
      intro n n' failed _ h
      exact absurd h throw_ne_ok.1
  | succ fuel ih =>
      intro n n' failed ht h
      rw [propagateWithin] at h
      split at h
      next =>
          obtain ⟨-, rfl⟩ := Prod.mk.inj (pure_eq_ok.1 h)
          exact ht
      next p t _ =>
          obtain ⟨⟨failed₁, n₁⟩, hlit, h⟩ := bind_eq_ok.1 h
          have ht₁ := traced_of_propagateLit (n := { n with
            trail := t, propagations := n.propagations + 1 }) ht hlit
          cases failed₁ with
          | some a =>
              obtain ⟨-, rfl⟩ := Prod.mk.inj (pure_eq_ok.1 h)
              exact ht₁
          | none => exact ih ht₁ h

/-- A propagation keeps the network traced. -/
theorem traced_of_propagate {failed : Option Handle} (ht : n.Traced had)
    (h : n.propagate = .ok (failed, n')) : n'.Traced had := traced_of_propagateWithin ht h

/-! ## Other steps

What the trail does is not looked at. Storing a constraint adds watchers with its own literals, and
thinning may leave blockers that are no longer in their clause. -/

namespace Traced

/-- More may be remembered. -/
theorem mono (ht : n.Traced had) (hsub : ∀ h b, had h b → had' h b) : n.Traced had' :=
  fun l x hx => (ht l x hx).mono hsub

/-- Activities do not matter. -/
theorem relabels (ht : n.Traced had) {store : Store} (hr : n.store.Relabels store) :
    Traced had { n with store } := fun l x hx => (ht l x hx).same hr.same

/-- A constraint was put on watch. -/
theorem stores {dead : Lit → Prop} (ht : n.Traced had) (hst : n.Stores n' h c)
    (hx : Exact n.index.line n.store dead) (hnew : ∀ l, ∀ x ∈ n'.index.line l, x ∈ n.index.line l ∨
      x.handle = h ∧ (c.isAtMost = false → ∃ b ∈ c.lits.toList, x.blocker = some b)) :
    n'.Traced had := by
  intro l x hxl d hd ha
  rw [hst.get?] at hd
  split at hd
  next heq =>
      obtain rfl := Option.some.inj hd
      rcases hnew l x hxl with hold | ⟨-, hb⟩
      · -- no watcher from before bears the fresh handle
        have := hx.issued l x hold
        rw [heq, hst.fresh] at this
        exact absurd this (Nat.lt_irrefl _)
      · obtain ⟨b, hb, hxb⟩ := hb ha
        exact ⟨b, hxb, Or.inl hb⟩
  next hne =>
      rcases hnew l x hxl with hold | ⟨heq, -⟩
      · exact ht l x hold d hd ha
      · exact absurd heq hne

/-- Constraints were removed, and clauses have lost literals, but this is remembered. -/
theorem thinned (ht : n.Traced had) {strengthened : Prop} {gone : Handle → Constraint → Prop}
    (hth : n.Thinned n' strengthened gone) (hhad : strengthened →
      ∀ h c b, n.store.get? h = some c → b ∈ c.lits.toList → had h b) : n'.Traced had := by
  intro l x hx c' hc' ha
  obtain ⟨c, hc, hkind, -, -, hsame⟩ := hth.left _ c' hc'
  have hac : c.isAtMost = false := by
    rw [← ha, Constraint.isAtMost, Constraint.isAtMost, hkind]
  obtain ⟨b, hxb, hor⟩ := ht l x (hth.index ▸ hx) c hc hac
  by_cases hst : strengthened
  · exact ⟨b, hxb, Or.inr (hor.elim (hhad hst _ c b hc) id)⟩
  · exact ⟨b, hxb, hsame hst ▸ hor⟩

end Traced

end Network

end CardSat
