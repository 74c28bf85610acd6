import CardSat.Proofs.Engine.Snapshot

set_option autoImplicit false

/-! # What is left of a saved state

A snapshot is taken in one state and loaded in another. `Engine.Preserves` compares the two as
far as the snapshot reaches: the oldest given constraints and facts are those that were there,
the given constraints are still stored, and no constraint counts as old that was not. Learnt
clauses may have been removed in between. Every step keeps this, and so does going back to a
younger snapshot.
-/

namespace CardSat

namespace Engine

variable {e₀ e e' : Engine} {s s' : Snapshot}

/-- What a snapshot counts on in `e` is what was there in `e₀`. -/
structure Preserves (s : Snapshot) (e₀ e : Engine) : Prop where
  given : e.database.given.toList.take s.clauses = e₀.database.given.toList.take s.clauses
  units : e.database.units.toList.take s.units = e₀.database.units.toList.take s.units
  stored : ∀ h ∈ e₀.database.given.toList.take s.clauses, ∀ c, e₀.store.get? h = some c →
    ∃ c', e.store.get? h = some c' ∧ c.Same c'
  old : ∀ h c', e.store.get? h = some c' → e.Survives s h c' →
    ∃ c, e₀.store.get? h = some c ∧ c.Same c'

namespace Preserves

/-- Steps that only add preserve what was saved. -/
theorem grown (h : Preserves s e₀ e) (hr : e.Restorable s) (hg : e.Grown e') :
    Preserves s e₀ e' where
  given := (take_given_of_grown hr hg).trans h.given
  units := (take_units_of_grown hr hg).trans h.units
  stored a ha c hc := by
    obtain ⟨c₁, hc₁, hsame₁⟩ := h.stored a ha c hc
    obtain ⟨c', hc', hsame⟩ := hg.stored a (List.mem_of_mem_take (h.given ▸ ha)) c₁ hc₁
    exact ⟨c', hc', hsame₁.trans hsame⟩
  old a c' hc' hsv := by
    obtain ⟨c₁, hc₁, hsame, hsv₁⟩ := survives_of_grown hr hg hc' hsv
    obtain ⟨c, hc, hsame₁⟩ := h.old a c₁ hc₁ hsv₁
    exact ⟨c, hc, hsame₁.trans hsame⟩

/-- Going back to a younger snapshot preserves what was saved. -/
theorem cut (h : Preserves s e₀ e) (hc : Cut s' e e') (ho : s.Older s') : Preserves s e₀ e' where
  given := (hc.take_given ho).trans h.given
  units := (hc.take_units ho).trans h.units
  stored a ha c hst := by
    obtain ⟨c₁, hc₁, hsame⟩ := h.stored a ha c hst
    exact ⟨c₁, hc.stored a (List.take_subset_take_left _ ho.clauses (h.given ▸ ha)) c₁ hc₁, hsame⟩
  old a c hst hsv := by
    rw [Survives, hc.take_given ho] at hsv
    exact h.old a c (hc.old a c hst).1 hsv

end Preserves

end Engine

end CardSat
