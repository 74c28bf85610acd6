import CardSat.Proofs.Constraint.Arrange
import CardSat.Proofs.Trail.Rewind

set_option autoImplicit false

/-! # What survives changes

`Explains` and `Supported` speak of the literals up to the level of one literal. They survive every
change of the trail that keeps these (`Trail.Keeps`): a longer trail, going back to a level above
it, forgetting reasons. They also survive rearranging the constraint as long as its first literal,
or its watched literals, stay.

Every step of the program is one of these changes, or several. So an invariant that says of each
stored constraint that it explains or supports something is carried through a step by the lemmas
here, without looking at the constraint again.
-/

namespace CardSat

namespace Trail

variable {t t' : Trail}

/-- The literals up to the level of `m` are on `t'` as they are on `t`. -/
structure Keeps (t t' : Trail) (m : Lit) : Prop where
  level : t'.levelOf m.var = t.levelOf m.var
  mem : ∀ l ∈ t, t.levelOf l.var ≤ t.levelOf m.var →
    l ∈ t' ∧ t'.levelOf l.var = t.levelOf l.var

/-- A longer trail keeps all literals it had. -/
theorem Extends.keeps (h : t.Extends t') {m : Lit} (hm : m ∈ t) : t.Keeps t' m :=
  ⟨h.levelOf hm, fun _ hl _ => ⟨h.mem hl, h.levelOf hl⟩⟩

/-- Going back keeps the literals that are left. -/
theorem keeps_rewind (hv : t.Valid) {b : Nat} {m : Lit} (hm : m ∈ (t.rewind b).2) :
    t.Keeps (t.rewind b).2 m := by
  have hb := ((mem_rewind hv).1 hm).2
  refine ⟨levelOf_rewind t b _, fun l hl hle => ⟨?_, levelOf_rewind t b _⟩⟩
  exact (mem_rewind hv).2 ⟨hl, Nat.le_trans hle hb⟩

/-- Forgetting reasons keeps all literals. -/
theorem Cleared.keeps (h : t.Cleared t') (m : Lit) : t.Keeps t' m :=
  ⟨h.level _, fun _ hl _ => ⟨h.mem_iff.2 hl, h.level _⟩⟩

/-- A new level keeps all literals. -/
theorem keeps_openLevel (t : Trail) (m : Lit) : t.Keeps t.openLevel m :=
  ⟨rfl, fun _ hl _ => ⟨hl, rfl⟩⟩

/-- Moving the head of the queue keeps all literals. -/
theorem keeps_withHead (t : Trail) (n : Nat) (m : Lit) : t.Keeps { t with head := n } m :=
  ⟨rfl, fun _ hl _ => ⟨hl, rfl⟩⟩

end Trail

namespace Constraint

variable {c c' : Constraint} {t t' : Trail} {before : List Lit} {m key : Lit}

/-- A constraint explains a literal as long as the literals up to its level are kept. -/
theorem Explains.keep (h : c.Explains t before m) (hk : t.Keeps t' m) :
    c.Explains t' before m where
  clause := h.clause
  atMost k hkind := by
    obtain ⟨hm, hcount, hall⟩ := h.atMost k hkind
    refine ⟨hm, hcount, fun l hl => ?_⟩
    rcases hall l hl with hb | ⟨hn, hle⟩
    · exact Or.inl hb
    · obtain ⟨hn', hlev⟩ := hk.mem l.neg hn hle
      rw [Lit.neg_var] at hlev
      exact Or.inr ⟨hn', by rw [hlev, hk.level]; exact hle⟩

/-- A constraint is supported under a key as long as the literals up to the level of the key are
kept. -/
theorem Supported.keep (h : c.Supported t key) (hk : t.Keeps t' key) : c.Supported t' key where
  clause ha := by
    obtain ⟨b, hb, hbt, hle⟩ := h.clause ha
    obtain ⟨hbt', hlev⟩ := hk.mem b hbt hle
    exact ⟨b, hb, hbt', by rw [hlev, hk.level]; exact hle⟩
  atMost ha l hl hne := by
    obtain ⟨hn, hle⟩ := h.atMost ha l hl hne
    obtain ⟨hn', hlev⟩ := hk.mem l.neg hn hle
    rw [Lit.neg_var] at hlev
    exact ⟨hn', by rw [hlev, hk.level]; exact hle⟩

/-- A violated constraint stays violated while literals are added. -/
theorem Falsified.of_subset (h : c.Falsified t) (hv : t.Valid) (hv' : t'.Valid)
    (hsub : ∀ l ∈ t, l ∈ t') : c.Falsified t' where
  clause ha l hl := hsub _ (h.clause ha l hl)
  atMost k hk := by
    refine Nat.lt_of_lt_of_le (h.atMost k hk) (List.countP_mono_left fun l _ hl => ?_)
    simp only [decide_eq_true_eq, hv.truth_yes, hv'.truth_yes] at hl ⊢
    exact hsub l hl

/-- A violated constraint stays violated when it is rearranged. -/
theorem Falsified.same (h : c.Falsified t) (hs : c.Same c') : c'.Falsified t where
  clause ha l hl := h.clause (hs.isAtMost_eq ▸ ha) l (hs.mem_iff.1 hl)
  atMost k hk := by
    rw [hs.perm.countP_eq]
    exact h.atMost k (hs.kind_atMost.1 hk)

/-- Rearranging a constraint without touching the first literal of a clause. -/
theorem Explains.same (h : c.Explains t before m) (hs : c.Same c')
    (hhead : c.isAtMost = false → c'.lits.toList.head? = c.lits.toList.head?) :
    c'.Explains t before m where
  clause ha := by
    rw [hs.isAtMost_eq] at ha
    obtain ⟨hm, htail⟩ := h.clause ha
    have hm' := (hhead ha).trans hm
    refine ⟨hm', fun a hat => htail a ?_⟩
    obtain ⟨ls, hls⟩ := List.head?_eq_some_iff.1 hm
    obtain ⟨ls', hls'⟩ := List.head?_eq_some_iff.1 hm'
    have hp := hs.perm
    rw [hls, hls'] at hp
    rw [hls', List.tail_cons] at hat
    rw [hls, List.tail_cons]
    exact hp.cons_inv.mem_iff.1 hat
  atMost k hk := by
    obtain ⟨hm, hcount, hall⟩ := h.atMost k (hs.kind_atMost.1 hk)
    exact ⟨hs.mem_iff.2 hm, by rw [hs.perm.countP_eq, hcount], fun l hl => hall l (hs.mem_iff.1 hl)⟩

/-- Rearranging a constraint without watching other literals. -/
theorem Supported.same (h : c.Supported t key) (hs : c.Same c')
    (hw : c.isAtMost = true → ∀ l, l ∈ c'.watchedLits → l ∈ c.watchedLits) :
    c'.Supported t key where
  clause ha := by
    rw [hs.isAtMost_eq] at ha
    obtain ⟨b, hb, hbt⟩ := h.clause ha
    exact ⟨b, hs.mem_iff.2 hb, hbt⟩
  atMost ha l hl hne := by
    rw [hs.isAtMost_eq] at ha
    exact h.atMost ha l (hw ha l hl) hne

/-- If the literals before a forced literal hold, so does the forced literal. -/
theorem Explains.holds {n : Nat} {w : World} (he : c.Explains t before m) (hv : t.Valid)
    (hc : c.WellFormed n) (hb : ∀ l ∈ before, l ∈ t) (hm : m ∈ t)
    (hw : c.holds w = true) (hbw : ∀ l ∈ before, l.holds w = true) : m.holds w = true := by
  refine he.forces hv hc hb hm hw ?_ fun _ l _ hl => hbw l hl
  intro ha a hat
  simpa using hbw _ ((he.clause ha).2 a hat)

end Constraint

end CardSat
