import CardSat.Proofs.Constraint.Stability
import CardSat.Proofs.Propagation.Fixpoint

set_option autoImplicit false

/-! # What unit propagation derives

A constraint `Forces` a literal when the literals derived before leave no other choice: all other
literals of a clause are false, or an at-most constraint has reached its bound. `Store.Derivable` is
the closure of facts under this, whatever watches and queues there are.

Two lemmas compare a trail with the closure. If every literal of the trail is derivable or has a
reason, all of them are derivable (`Network.derivable_of_mem`). If the trail contains the facts and
every constraint is at its fixpoint, it contains all that is derivable (`Store.Derivable.mem`).

The closure is what makes propagation comparable between two solvers, or between a solver and itself
before and after a snapshot is loaded: it depends on the constraints and the facts, not on the order
in which they came. Rearranging the literals of a constraint does not change what it forces
(`Forces.same`).
-/

namespace CardSat

namespace Constraint

/-- All other literals of a clause with `l` are false because of `before`, or `before` has as
many literals of an at-most constraint as it admits, and not the complement of `l`, which is
another one. -/
structure Forces (c : Constraint) (before : List Lit) (l : Lit) : Prop where
  clause : c.isAtMost = false →
    l ∈ c.lits.toList ∧ ∀ a ∈ c.lits.toList, a ≠ l → a.neg ∈ before
  atMost : ∀ k, c.kind = .atMost k →
    l.neg ∈ c.lits.toList ∧ l.neg ∉ before ∧ k ≤ c.lits.toList.countP fun a => a ∈ before

variable {c c' : Constraint} {t : Trail} {before : List Lit} {l : Lit} {n : Nat} {w : World}

/-- A reason on the trail forces its literal. -/
theorem Explains.to_forces (he : c.Explains t before l) (hv : t.Valid)
    (hb : ∀ m ∈ before, m ∈ t) (hl : l ∈ t) : c.Forces before l where
  clause ha := by
    obtain ⟨hhead, htail⟩ := he.clause ha
    obtain ⟨rest, hrest⟩ := List.head?_eq_some_iff.1 hhead
    rw [hrest] at htail ⊢
    refine ⟨List.mem_cons_self, fun a hal hne => htail a ?_⟩
    exact (List.mem_cons.1 hal).resolve_left hne
  atMost k hk := by
    obtain ⟨hmem, hcount, -⟩ := he.atMost k hk
    exact ⟨hmem, fun hneg => hv.neg_not_mem hl (hb _ hneg), Nat.le_of_eq hcount.symm⟩

/-- What a constraint forces is a consequence of it. -/
theorem Forces.holds (hf : c.Forces before l) (hc : c.WellFormed n) (hw : c.holds w = true)
    (hb : ∀ m ∈ before, m.holds w = true) : l.holds w = true := by
  cases ha : c.isAtMost with
  | false =>
      obtain ⟨-, hothers⟩ := hf.clause ha
      rw [holds_of_not_isAtMost ha, World.clauseHolds_iff] at hw
      obtain ⟨a, hal, haw⟩ := hw
      by_cases hne : a = l
      · exact hne ▸ haw
      · have := hb _ (hothers a hal hne)
        rw [Lit.holds_neg, haw] at this
        cases this
  | true =>
      obtain ⟨k, hk⟩ := isAtMost_eq_true.1 ha
      obtain ⟨hmem, hnot, hcount⟩ := hf.atMost k hk
      rw [holds_of_atMost hk, World.atMostHolds, decide_eq_true_iff,
        World.count_of_nodup hc.nodup] at hw
      by_contra hno
      have hneg : l.neg.holds w = true := by simpa using hno
      -- the true literals are those of `before` and one more
      have hmore : (c.lits.toList.countP fun a => a ∈ before) <
          c.lits.toList.countP (Lit.holds w) :=
        countP_lt_countP (fun a _ hab => hb a (of_decide_eq_true hab)) hmem hneg (by simpa using hnot)
      omega

/-- Rearranging a constraint does not change what it forces. -/
theorem Forces.same (hf : c.Forces before l) (hs : c.Same c') : c'.Forces before l where
  clause ha := by
    obtain ⟨hmem, hothers⟩ := hf.clause (hs.isAtMost_eq ▸ ha)
    exact ⟨hs.mem_iff.2 hmem, fun a hal => hothers a (hs.mem_iff.1 hal)⟩
  atMost k hk := by
    obtain ⟨hmem, hnot, hcount⟩ := hf.atMost k (hs.kind_atMost.1 hk)
    exact ⟨hs.mem_iff.2 hmem, hnot, hs.perm.countP_eq _ ▸ hcount⟩

/-- At its fixpoint a constraint forces nothing that is not there. -/
theorem Forces.mem (hf : c.Forces before l) (hc : c.WellFormed n) (hv : t.Valid)
    (hfix : c.AtFixpoint t) (hb : ∀ m ∈ before, m ∈ t) : l ∈ t := by
  cases ha : c.isAtMost with
  | false =>
      obtain ⟨hmem, hothers⟩ := hf.clause ha
      have hno : ∀ a ∈ c.lits.toList, a ≠ l → t.truth a = .no := fun a hal hne =>
        (hv.truth_no a).2 (hb _ (hothers a hal hne))
      rcases hfix.clause ha with ⟨a, hal, hyes⟩ | htwo
      · by_cases hne : a = l
        · exact hne ▸ (hv.truth_yes a).1 hyes
        · rw [hno a hal hne] at hyes
          cases hyes
      · -- only `l` can be without a value, and it occurs once
        have hone : (c.lits.toList.countP fun a => t.truth a = .unset) ≤ 1 :=
          calc (c.lits.toList.countP fun a => t.truth a = .unset)
              ≤ c.lits.toList.countP (· == l) := List.countP_mono_left fun a hal hu => by
                by_contra hne
                rw [hno a hal (by simpa using hne)] at hu
                cases of_decide_eq_true hu
            _ ≤ 1 := by
                rw [← List.count_eq_countP]
                exact List.nodup_iff_count_le_one.1 hc.nodup l
        omega
  | true =>
      obtain ⟨k, hk⟩ := isAtMost_eq_true.1 ha
      obtain ⟨hmem, hnot, hcount⟩ := hf.atMost k hk
      obtain ⟨hle, hreached⟩ := hfix.atMost k hk
      have hyes : ∀ a ∈ c.lits.toList, decide (a ∈ before) = true →
          decide (t.truth a = .yes) = true := fun a _ hab =>
        decide_eq_true ((hv.truth_yes a).2 (hb a (of_decide_eq_true hab)))
      have hmono := List.countP_mono_left hyes
      cases hx : t.truth l.neg with
      | no => exact l.neg_neg ▸ (hv.truth_no l.neg).1 hx
      | unset => exact absurd hx (hreached (by omega) l.neg hmem)
      | yes =>
          -- one more true literal would exceed the bound
          have hmore := countP_lt_countP hyes hmem (decide_eq_true hx) (by simpa using hnot)
          omega

end Constraint

/-! ## The closure

A derivation is a tree of constraints with facts at its leaves. The literals that a constraint needs
are any list of derived ones, so that a literal may be used by several constraints. -/

/-- The literals that unit propagation derives from some facts. -/
inductive Store.Derivable (store : Store) (facts : List Lit) : Lit → Prop
  | fact {l : Lit} (h : l ∈ facts) : Derivable store facts l
  | force {h : Handle} {c : Constraint} {before : List Lit} {l : Lit}
      (hc : store.get? h = some c) (hbefore : ∀ m ∈ before, Derivable store facts m)
      (hl : c.Forces before l) : Derivable store facts l

namespace Store.Derivable

variable {store store' : Store} {facts : List Lit} {t : Trail} {l : Lit} {n : Nat} {w : World}

/-- Rearranging constraints, or adding some, loses nothing. -/
theorem of_stored (h : store.Derivable facts l)
    (hsub : ∀ a c, store.get? a = some c → ∃ b c', store'.get? b = some c' ∧ c.Same c') :
    store'.Derivable facts l := by
  induction h with
  | fact hl => exact .fact hl
  | force hc _ hl ih =>
      obtain ⟨b, c', hc', hsame⟩ := hsub _ _ hc
      exact .force hc' ih (hl.same hsame)

/-- What is derivable is a consequence. -/
theorem holds (h : store.Derivable facts l)
    (hformed : ∀ a c, store.get? a = some c → c.WellFormed n)
    (hw : ∀ a c, store.get? a = some c → c.holds w = true) (hf : ∀ m ∈ facts, m.holds w = true) :
    l.holds w = true := by
  induction h with
  | fact hl => exact hf _ hl
  | force hc _ hl ih => exact hl.holds (hformed _ _ hc) (hw _ _ hc) ih

/-- A trail with the facts on which nothing more is forced has all that is derivable. -/
theorem mem (h : store.Derivable facts l) (hv : t.Valid)
    (hformed : ∀ a c, store.get? a = some c → c.WellFormed n)
    (hfix : ∀ a c, store.get? a = some c → c.AtFixpoint t) (hf : ∀ m ∈ facts, m ∈ t) : l ∈ t := by
  induction h with
  | fact hl => exact hf _ hl
  | force hc _ hl ih => exact hl.mem (hformed _ _ hc) hv (hfix _ _ hc) ih

end Store.Derivable

/-- If every literal of a trail is derivable or has a reason, all of them are derivable. -/
theorem Network.derivable_of_mem {n : Network} {dead : Lit → Prop} {line : Lit → List Watcher}
    {facts : List Lit} (hs : n.Sane dead line)
    (hforced : ∀ m ∈ n.trail, n.store.Derivable facts m ∨ ∃ a, n.trail.reasonOf m.var = some a)
    {l : Lit} (hl : l ∈ n.trail) : n.store.Derivable facts l := by
  obtain ⟨i, hi⟩ := List.mem_iff_getElem?.1 hl
  -- by induction on the position, since a reason mentions earlier literals only
  induction i using Nat.strongRecOn generalizing l with
  | ind i ih =>
      rcases hforced l hl with hd | ⟨a, ha⟩
      · exact hd
      obtain ⟨c, hc, hex⟩ := hs.reasons i l a hi ha
      have hbefore : ∀ m ∈ n.trail.lits.toList.take i, m ∈ n.trail := fun m hm =>
        List.mem_of_mem_take hm
      refine .force hc (fun m hm => ?_) (hex.to_forces hs.trail hbefore hl)
      obtain ⟨j, hj⟩ := List.mem_iff_getElem?.1 hm
      rw [List.getElem?_take] at hj
      split at hj
      next hji => exact ih j hji (hbefore m hm) hj
      next => cases hj

end CardSat
