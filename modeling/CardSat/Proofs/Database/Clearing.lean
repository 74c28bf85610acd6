import CardSat.Proofs.Database.Removal

set_option autoImplicit false

/-! # Removing constraints only clears reasons

The three operations that remove constraints leave the trail as it is, except that a variable may
lose its reason, whatever the lists and the store look like. So an operation that is given a trail
it was not made for still leaves the values, the levels and the order of the literals alone. The
invariant of a sweep says more (`Database.Sweeping`), but it has conditions, and this has none.
-/

namespace CardSat

namespace Database

variable {db db' : Database} {store : Store} {trail : Trail} {s s' : Sweep} {h : Handle}
  {c : Constraint}

/-- Freeing a constraint touches the reasons of its literals only. -/
theorem cleared_of_drop (hd : s.drop h c = .ok s') : s.trail.Cleared s'.trail := by
  simp only [Sweep.drop, bind_eq_ok, pure_eq_ok] at hd
  obtain ⟨_, htrail, _, -, rfl⟩ := hd
  exact (cleared_of_foldlM htrail).1

/-- A step of the removal of satisfied constraints frees, strengthens or keeps, and only the first
of these touches the trail. -/
theorem cleared_of_sweepSatisfied {st : Bool} (hs : sweepSatisfied st s h = .ok s') :
    s.trail.Cleared s'.trail := by
  simp only [sweepSatisfied, bind_eq_ok] at hs
  obtain ⟨c, -, b, -, hs⟩ := hs
  split at hs
  · exact cleared_of_drop hs
  · split at hs
    · simp only [bind_eq_ok, pure_eq_ok] at hs
      obtain ⟨_, -, rfl⟩ := hs
      exact .refl _
    · exact pure_eq_ok.1 hs ▸ .refl _

/-- A loop of steps that clear reasons clears reasons. -/
theorem cleared_of_steps {α : Type} {f : Sweep → α → Checked Sweep} {as : List α}
    (hf : ∀ {s a s'}, f s a = .ok s' → s.trail.Cleared s'.trail) (h : as.foldlM f s = .ok s') :
    s.trail.Cleared s'.trail :=
  foldlM_ok (fun _ s₁ => s.trail.Cleared s₁.trail) (fun _ _ _ _ hc hstep => hc.trans (hf hstep))
    (.refl _) h

/-- Removing satisfied constraints only clears reasons. -/
theorem cleared_of_removeSatisfied {givenToo st : Bool}
    (h : db.removeSatisfied store trail givenToo st = .ok (db', s)) : trail.Cleared s.trail := by
  simp only [removeSatisfied, bind_eq_ok, ← Array.foldlM_toList] at h
  obtain ⟨_, -, s₁, hlearnts, h⟩ := h
  have hc : trail.Cleared s₁.trail := cleared_of_steps cleared_of_sweepSatisfied hlearnts
  split at h
  · simp only [bind_eq_ok, pure_eq_ok, Prod.mk.injEq] at h
    obtain ⟨s₂, hgiven, -, rfl⟩ := h
    have hc' := cleared_of_steps cleared_of_sweepSatisfied hgiven
    exact hc.trans hc'
  · simp only [pure_eq_ok, Prod.mk.injEq] at h
    exact h.2 ▸ hc

/-- Giving up learnt clauses only clears reasons. -/
theorem cleared_of_reduce (h : db.reduce store trail = .ok (db', s)) : trail.Cleared s.trail := by
  obtain ⟨entries, -, -, hfold, -⟩ := reduce_ranked h
  refine cleared_of_steps (fun {s x s'} hstep => ?_) hfold
  rcases giveUp_eq_ok hstep with hd | rfl
  · exact cleared_of_drop hd
  · exact .refl _

/-- Going back to a snapshot of the lists only clears reasons. -/
theorem cleared_of_truncate {given serial units : Nat}
    (h : db.truncate store trail given serial units = .ok (db', s)) : trail.Cleared s.trail := by
  simp only [truncate, bind_eq_ok, pure_eq_ok, Prod.mk.injEq, ← Array.foldlM_toList] at h
  obtain ⟨s₁, hgiven, s₂, hlearnts, -, rfl⟩ := h
  refine (cleared_of_steps (fun {s a s'} hstep => ?_) hgiven).trans
    (cleared_of_steps (fun {s a s'} hstep => ?_) hlearnts)
  · rw [bind_eq_ok] at hstep
    obtain ⟨c, -, hstep⟩ := hstep
    exact cleared_of_drop hstep
  · rw [bind_eq_ok] at hstep
    obtain ⟨c, -, hstep⟩ := hstep
    split at hstep
    · split at hstep
      · exact pure_eq_ok.1 hstep ▸ .refl _
      · exact cleared_of_drop hstep
    · exact pure_eq_ok.1 hstep ▸ .refl _

end Database

end CardSat
