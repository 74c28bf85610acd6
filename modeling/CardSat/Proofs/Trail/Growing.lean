import CardSat.Proofs.Trail.Rewind

set_option autoImplicit false

/-! # Trails that only grow

`Trail.Grows`: every value stays, and the invariant of the trail is kept. Assigning, opening a
level, taking literals off the queue and clearing reasons are steps of this kind, whatever else is
known of the constraints.

It is a weaker relation than `Extends`, which fixes the level and the positions of the literals, and
it is what those parts of the program look at that only ask for values: the choice of the next
decision, and the sides that variables were last on.
-/

namespace CardSat

namespace Trail

variable {t t' t'' : Trail} {l : Lit} {r : Option Handle} {v : Var}

/-- Every value stays. -/
structure Grows (t t' : Trail) : Prop where
  varCount : t'.varCount = t.varCount
  valid : t.Valid → t'.Valid
  kept : ∀ v, (t.cellOf v).value.isUnset = false → (t'.cellOf v).value = (t.cellOf v).value

namespace Grows

/-- Nothing changes. -/
theorem refl (t : Trail) : t.Grows t := ⟨rfl, id, fun _ _ => rfl⟩

/-- Growing further. -/
theorem trans (h : t.Grows t') (h' : t'.Grows t'') : t.Grows t'' where
  varCount := h'.varCount.trans h.varCount
  valid hv := h'.valid (h.valid hv)
  kept v hv := by
    have heq := h.kept v hv
    rw [h'.kept v (heq ▸ hv), heq]

/-- A variable that is free was free before. -/
theorem isUnset (h : t.Grows t') (hv : (t'.cellOf v).value.isUnset = true) :
    (t.cellOf v).value.isUnset = true := by
  by_contra hset
  rw [Bool.not_eq_true] at hset
  rw [h.kept v hset, hset] at hv
  cases hv

end Grows

/-- One literal more. -/
theorem Assigned.grows (h : Assigned t l r t') : t.Grows t' where
  varCount := h.varCount
  valid := h.valid
  kept v hv := by
    by_cases hvl : v = l.var
    · have hunset := isUnset_iff.2 h.unset
      rw [hvl, hunset] at hv
      cases hv
    · rw [h.cell_ne v hvl]

/-- Reasons are forgotten. -/
theorem Cleared.grows (h : t.Cleared t') : t.Grows t' :=
  ⟨h.varCount, h.valid, fun v _ => h.value v⟩

/-- A level is opened. -/
theorem grows_openLevel (t : Trail) : t.Grows t.openLevel :=
  ⟨rfl, valid_openLevel, fun _ _ => rfl⟩

/-- A literal is assigned on a level of its own. -/
theorem grows_of_decide (h : t.openLevel.assign l r = .ok t') : t.Grows t' :=
  (grows_openLevel t).trans (assigned_of_assign h).grows

/-- The head of the queue moves. -/
theorem grows_withHead {n : Nat} (hn : n ≤ t.lits.size) : t.Grows { t with head := n } :=
  ⟨rfl, fun hv => valid_withHead hv hn, fun _ _ => rfl⟩

/-- A literal is taken off the queue. -/
theorem grows_of_dequeue {p : Lit} (h : t.dequeue = some (p, t')) : t.Grows t' := by
  obtain ⟨hp, rfl⟩ := dequeue_eq_some h
  have hlt := (List.getElem?_eq_some_iff.1 hp).1
  exact grows_withHead (by rwa [Array.length_toList] at hlt)

/-- A literal is made true unless it has a value. -/
theorem grows_of_tryAssign {b : Bool} (h : t.tryAssign l r = .ok (b, t')) : t.Grows t' := by
  simp only [tryAssign, bind_eq_ok] at h
  obtain ⟨x, -, h⟩ := h
  cases x with
  | unset =>
      simp only [bind_eq_ok, pure_eq_ok, Prod.mk.injEq] at h
      obtain ⟨t₁, ht, -, rfl⟩ := h
      exact (assigned_of_assign ht).grows
  | yes =>
      simp only [pure_eq_ok, Prod.mk.injEq] at h
      exact h.2 ▸ .refl t
  | no =>
      simp only [pure_eq_ok, Prod.mk.injEq] at h
      exact h.2 ▸ .refl t

end Trail

end CardSat
