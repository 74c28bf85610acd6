import CardSat.Store
import CardSat.Proofs.Constraint

set_option autoImplicit false

/-! # The store

What `put`, `alloc` and `free` do to `Store.get?`. A handle below the number of slots was given out
at some time; a new handle is that number. `Store.Same` relates two stores that hold the same
constraints under the same handles.

The store reuses no slot, so a handle names one constraint for as long as the store lives. This is
why the lemmas below compare handles by their index (`index_eq_iff`), and why an old handle that
turns up later reads nothing, and never another constraint.
-/

namespace CardSat

namespace Store

variable {s s' : Store} {h h' : Handle} {c : Constraint}

/-- A constraint is stored under a handle when its slot is filled. -/
theorem get?_eq_some : s.get? h = some c ↔ s.slots[h.index]? = some (some c) := by
  rw [get?, Array.getD_eq_getD_getElem?]
  cases s.slots[h.index]? <;> simp

/-- A handle that names something was given out. -/
theorem lt_of_get? (hc : s.get? h = some c) : h.index < s.slots.size :=
  (Array.getElem?_eq_some_iff.1 (get?_eq_some.1 hc)).1

theorem fetch_eq_ok : s.fetch h = .ok c ↔ s.get? h = some c := present_eq_ok

/-- A handle is its index. -/
theorem index_eq_iff : h'.index = h.index ↔ h' = h := by
  cases h; cases h'; simp

/-- Replacing a constraint changes what is read under its handle. -/
theorem get?_put {c' : Constraint} (hc : s.get? h = some c) (h' : Handle) :
    (s.put h c').get? h' = if h' = h then some c' else s.get? h' := by
  have hlt := lt_of_get? hc
  simp only [get?, put, Array.getD_eq_getD_getElem?, Array.getElem?_setIfInBounds, index_eq_iff,
    if_pos hlt, eq_comm (a := h)]
  split <;> rfl

@[simp] theorem size_put (s : Store) (h : Handle) (c : Constraint) :
    (s.put h c).slots.size = s.slots.size := by
  simp [put]

/-- What `alloc` does: the constraint is stored under a handle that named nothing. -/
theorem alloc_eq_ok {kind : Kind} {lits : Array Lit} (ha : s.alloc kind lits = .ok (h, s')) :
    2 ≤ lits.size ∧ h.index = s.slots.size ∧ s.get? h = none ∧
      s'.slots.size = s.slots.size + 1 ∧
      ∀ h', s'.get? h' = if h' = h then some ⟨kind, lits⟩ else s.get? h' := by
  simp only [alloc, bind_eq_ok, require_eq_ok, pure_eq_ok, Prod.mk.injEq,
    decide_eq_true_eq] at ha
  obtain ⟨_, h2, rfl, rfl⟩ := ha
  refine ⟨h2, rfl, by simp [get?], by simp, fun h' => ?_⟩
  simp only [get?, Array.getD_eq_getD_getElem?, Array.getElem?_push]
  by_cases he : h' = ⟨s.slots.size⟩
  · subst he
    simp
  · have : h'.index ≠ s.slots.size := by
      intro hi
      exact he (index_eq_iff.1 hi)
    rw [if_neg this, if_neg he]

/-- Freeing empties one slot and keeps it. -/
theorem free_eq_ok (hf : s.free h = .ok s') :
    s'.slots.size = s.slots.size ∧ ∀ h', s'.get? h' = if h' = h then none else s.get? h' := by
  simp only [free, bind_eq_ok, require_eq_ok, pure_eq_ok] at hf
  obtain ⟨_, hd, rfl⟩ := hf
  refine ⟨by simp, fun h' => ?_⟩
  obtain ⟨c, hc⟩ : ∃ c, s.get? h = some c := by
    simp only [isDeleted, Bool.not_eq_true', Option.isNone_eq_false_iff,
      Option.isSome_iff_exists] at hd
    exact hd
  have hlt := lt_of_get? hc
  simp only [get?, Array.getD_eq_getD_getElem?, Array.getElem?_setIfInBounds, index_eq_iff,
    if_pos hlt, eq_comm (a := h)]
  split <;> rfl

/-- Two stores with the same constraints under the same handles. -/
structure Same (s s' : Store) : Prop where
  size : s'.slots.size = s.slots.size
  forth : ∀ h c, s.get? h = some c → ∃ c', s'.get? h = some c' ∧ c.Same c'
  back : ∀ h c', s'.get? h = some c' → ∃ c, s.get? h = some c ∧ c.Same c'

namespace Same

/-- A store is the same as itself. -/
theorem refl (s : Store) : s.Same s :=
  ⟨rfl, fun _ c hc => ⟨c, hc, .refl c⟩, fun _ c hc => ⟨c, hc, .refl c⟩⟩

theorem trans {s'' : Store} (h : s.Same s') (h' : s'.Same s'') : s.Same s'' where
  size := h'.size.trans h.size
  forth a c hc := by
    obtain ⟨c', hc', hs⟩ := h.forth a c hc
    obtain ⟨c'', hc'', hs'⟩ := h'.forth a c' hc'
    exact ⟨c'', hc'', hs.trans hs'⟩
  back a c'' hc'' := by
    obtain ⟨c', hc', hs'⟩ := h'.back a c'' hc''
    obtain ⟨c, hc, hs⟩ := h.back a c' hc'
    exact ⟨c, hc, hs.trans hs'⟩

theorem put {c' : Constraint} (hc : s.get? h = some c) (hs : c.Same c') :
    s.Same (s.put h c') where
  size := size_put s h c'
  forth a d hd := by
    by_cases ha : a = h
    · subst ha
      obtain rfl := Option.some.inj (hc.symm.trans hd)
      exact ⟨c', by rw [get?_put hc, if_pos rfl], hs⟩
    · exact ⟨d, by rw [get?_put hc, if_neg ha, hd], .refl d⟩
  back a d hd := by
    rw [get?_put hc] at hd
    split at hd
    next ha =>
        obtain rfl := Option.some.inj hd
        exact ⟨c, ha ▸ hc, hs⟩
    next ha => exact ⟨d, hd, .refl d⟩

/-- Constraints that are the same hold in the same worlds. -/
theorem holds (h : s.Same s') {w : World} (hw : ∀ a c, s.get? a = some c → c.holds w = true) :
    ∀ a c, s'.get? a = some c → c.holds w = true := by
  intro a c' hc'
  obtain ⟨c, hc, hs⟩ := h.back a c' hc'
  rw [hs.holds_eq]
  exact hw a c hc

end Same

end Store

end CardSat
