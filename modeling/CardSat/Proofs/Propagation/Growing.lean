import CardSat.Proofs.Propagation.Visit
import CardSat.Proofs.Trail.Growing

set_option autoImplicit false

/-! # Propagation only adds to the trail

Whatever the constraints and the watch index look like, a propagation that returns has changed the
trail by assigning variables without a value and by taking literals off the queue
(`Network.grows_of_propagate`).

Nothing is assumed about the network, so this can be used where little is known of it: for the
variables that wait to be decided and the values they had, and for the positions of literals on the
trail. The proof goes through the definitions from the inside out, and at each place there are only
three ways in which the trail is touched: it stays, a literal is assigned, or the head of the queue
moves on.
-/

namespace CardSat

/-- Making the literals of a list false assigns some of their complements. -/
theorem Trail.grows_of_forceFalse {t t' : Trail} {p : Lit} {h : Handle} {lits : List Lit}
    (hf : t.forceFalse p h lits = .ok t') : t.Grows t' := by
  refine foldlM_ok (fun _ t₁ => t.Grows t₁) (fun l _ t₁ t₂ hg hstep => ?_) (.refl t) hf
  split at hstep
  · exact pure_eq_ok.1 hstep ▸ hg
  · simp only [bind_eq_ok] at hstep
    obtain ⟨b, -, hstep⟩ := hstep
    split at hstep
    · exact pure_eq_ok.1 hstep ▸ hg
    · exact hg.trans (assigned_of_assign hstep).grows

namespace Network

variable {n n' : Network} {p : Lit} {w : Watcher} {c : Constraint} {x : Visit}
  {failed : Option Handle}

/-- A visit to an at-most constraint leaves the trail alone, or forces the literals of the
constraint. -/
theorem grows_of_visitAtMost (h : n.visitAtMost p w c = .ok (x, n')) : n.trail.Grows n'.trail := by
  simp only [visitAtMost, bind_eq_ok] at h
  obtain ⟨change, -, h⟩ := h
  cases change with
  | keep =>
      simp only [pure_eq_ok, Prod.mk.injEq] at h
      exact h.2 ▸ .refl _
  | move l c =>
      simp only [bind_eq_ok, pure_eq_ok, Prod.mk.injEq] at h
      obtain ⟨_, -, -, rfl⟩ := h
      exact .refl _
  | force =>
      simp only [bind_eq_ok, pure_eq_ok, Prod.mk.injEq] at h
      obtain ⟨_, -, t, ht, -, rfl⟩ := h
      exact Trail.grows_of_forceFalse ht
  | fail =>
      simp only [pure_eq_ok, Prod.mk.injEq] at h
      exact h.2 ▸ .refl _

/-- A clause assigns at most its first literal. -/
theorem grows_of_settleClause {first : Lit} {satisfied : Bool}
    (h : n.settleClause w c first satisfied = .ok (x, n')) : n.trail.Grows n'.trail := by
  simp only [settleClause] at h
  split at h
  · simp only [pure_eq_ok, Prod.mk.injEq] at h
    exact h.2 ▸ .refl _
  · simp only [bind_eq_ok] at h
    obtain ⟨pulled, -, h⟩ := h
    cases pulled with
    | some found =>
        simp only [bind_eq_ok, pure_eq_ok, Prod.mk.injEq] at h
        obtain ⟨_, -, -, rfl⟩ := h
        exact .refl _
    | none =>
        simp only [bind_eq_ok] at h
        obtain ⟨isFalse, -, h⟩ := h
        split at h
        · simp only [pure_eq_ok, Prod.mk.injEq] at h
          exact h.2 ▸ .refl _
        · simp only [bind_eq_ok, pure_eq_ok, Prod.mk.injEq] at h
          obtain ⟨t, ht, -, rfl⟩ := h
          exact (Trail.assigned_of_assign ht).grows

/-- A visit to a clause settles it after it was turned, which is not about the trail. -/
theorem grows_of_visitClause (h : n.visitClause p w c = .ok (x, n')) : n.trail.Grows n'.trail := by
  obtain ⟨_, _, _, _, -, -, -, -, hsettle⟩ := visitClause_eq_ok h
  exact grows_of_settleClause hsettle

/-- A visit to a watcher may be over with its blocker, or with a handle that is no longer in use. -/
theorem grows_of_visit (h : n.visit p w = .ok (x, n')) : n.trail.Grows n'.trail := by
  rcases visit_eq_ok h with ⟨b, -, -, heq⟩ | ⟨-, heq⟩ | ⟨c, -, h⟩
  · exact (Prod.mk.inj heq).2 ▸ .refl _
  · exact (Prod.mk.inj heq).2 ▸ .refl _
  · split at h
    · exact grows_of_visitAtMost h
    · exact grows_of_visitClause h

/-- A line is gone through visit by visit, up to the first that fails. -/
theorem grows_of_visitAll {kept' : Array Watcher} : ∀ {line : List Watcher} {kept : Array Watcher}
    {n : Network}, visitAll p line kept n = .ok (kept', failed, n') → n.trail.Grows n'.trail := by
  intro line
  induction line with
  | nil =>
      intro kept n h
      simp only [visitAll, pure_eq_ok, Prod.mk.injEq] at h
      exact h.2.2 ▸ .refl _
  | cons w rest ih =>
      intro kept n h
      simp only [visitAll, bind_eq_ok] at h
      obtain ⟨⟨x, n₁⟩, hvisit, h⟩ := h
      have hg := grows_of_visit hvisit
      cases x with
      | stay w => exact hg.trans (ih h)
      | leave => exact hg.trans (ih h)
      | fail w =>
          simp only [pure_eq_ok, Prod.mk.injEq] at h
          exact h.2.2 ▸ hg

/-- Taking the line out of the index and putting it back does not touch the trail. -/
theorem grows_of_propagateLit (h : n.propagateLit p = .ok (failed, n')) :
    n.trail.Grows n'.trail := by
  simp only [propagateLit, bind_eq_ok, pure_eq_ok, Prod.mk.injEq] at h
  obtain ⟨⟨line, index⟩, -, ⟨kept, failed', n₁⟩, hvisit, index', -, -, rfl⟩ := h
  have := grows_of_visitAll hvisit
  exact this

/-- The queue is emptied literal by literal. -/
theorem grows_of_propagateWithin : ∀ {fuel : Nat} {n : Network},
    propagateWithin fuel n = .ok (failed, n') → n.trail.Grows n'.trail := by
  intro fuel
  induction fuel with
  | zero => exact fun h => (throw_ne_ok.1 h).elim
  | succ fuel ih =>
      intro n h
      rw [propagateWithin] at h
      split at h
      next =>
          simp only [pure_eq_ok, Prod.mk.injEq] at h
          exact h.2 ▸ .refl _
      next p t hdequeue =>
          have hd := Trail.grows_of_dequeue hdequeue
          simp only [bind_eq_ok] at h
          obtain ⟨⟨o, n₁⟩, hlit, h⟩ := h
          have hg := hd.trans (grows_of_propagateLit hlit)
          cases o with
          | none => exact hg.trans (ih h)
          | some a =>
              simp only [pure_eq_ok, Prod.mk.injEq] at h
              obtain ⟨-, rfl⟩ := h
              exact hg.trans (Trail.grows_withHead (Nat.le_refl _))

/-- The trail that a propagation leaves has grown from the one it was given. -/
theorem grows_of_propagate (h : n.propagate = .ok (failed, n')) : n.trail.Grows n'.trail :=
  grows_of_propagateWithin h

end Network

end CardSat
