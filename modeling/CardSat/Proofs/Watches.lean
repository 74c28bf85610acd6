import CardSat.Proofs.Ledger.Usage

set_option autoImplicit false

/-! # What is on watch

The lines of the watch index are exact (`Network.Indexed`): a clause has one watcher under the
complement of each of its first two literals, an at-most constraint one under each literal that is
watched, and neither has any others. A watcher of a freed constraint is on a line that is marked
dirty.

This is so between any two calls of a solver, however it is used, and no propagation comes across a
freed constraint or a variable that is gone (`indexed_of_usage`).
-/

namespace CardSat

/-- The number of watchers of a constraint in the line of a literal. -/
def WatchIndex.countIn (w : WatchIndex) (l : Lit) (h : Handle) : Nat :=
  (w.line l).countP fun x => x.handle = h

namespace Network

variable {past : Handle → Lit → Prop} {n : Network} {dead : Lit → Prop} {h : Handle}
  {c : Constraint} {lits : Array Lit} {k : Nat}

/-- The watchers are those of the constraints in use, and on dirty lines those of freed ones. The
blockers of a clause are literals that it has, or has had in the past. -/
structure Indexed (past : Handle → Lit → Prop) (n : Network) : Prop where
  clause : ∀ h c, n.store.get? h = some c → c.isAtMost = false →
    ∃ a b, c.lits[0]? = some a ∧ c.lits[1]? = some b ∧ a.var ≠ b.var ∧
      ∀ l, n.index.countIn l h = if l = a.neg ∨ l = b.neg then 1 else 0
  blocker : ∀ h c, n.store.get? h = some c → c.isAtMost = false →
    ∀ l, ∀ x ∈ n.index.line l, x.handle = h →
      ∃ b, x.blocker = some b ∧ (b ∈ c.lits.toList ∨ past h b)
  atMost : ∀ h lits k, n.store.get? h = some ⟨.atMost k, lits⟩ → k < lits.size ∧
    ∀ l, n.index.countIn l h = if l ∈ lits.toList.take (lits.size - k + 1) then 1 else 0
  freed : ∀ l, ∀ x ∈ n.index.line l, n.store.get? x.handle = none → n.index.isDirty l = true

/-- A clause is watched under the complements of its first two literals. -/
theorem countIn_of_clause (ha : n.Aligned dead n.index.line) (hc : n.store.get? h = some c)
    (hclause : c.isAtMost = false) :
    ∃ a b, c.lits[0]? = some a ∧ c.lits[1]? = some b ∧ a.var ≠ b.var ∧
      ∀ l, n.index.countIn l h = if l = a.neg ∨ l = b.neg then 1 else 0 := by
  have hwf := ha.formed hc
  obtain ⟨a, b, rest, hlits⟩ : ∃ a b rest, c.lits.toList = a :: b :: rest := by
    have htwo : 2 ≤ c.lits.toList.length := by
      rw [Array.length_toList]
      exact hwf.two_le
    rcases hl : c.lits.toList with _ | ⟨a, _ | ⟨b, rest⟩⟩
    · simp [hl] at htwo
    · simp [hl] at htwo
    · exact ⟨a, b, rest, rfl⟩
  have hdistinct := hwf.distinct
  rw [hlits, List.map_cons, List.map_cons, List.nodup_cons] at hdistinct
  refine ⟨a, b, ?_, ?_, fun heq => hdistinct.1 (by simp [heq]), fun l => ?_⟩
  · rw [← Array.getElem?_toList, hlits]
    rfl
  · rw [← Array.getElem?_toList, hlits]
    rfl
  · -- the keys differ because the variables do
    have hkeys : c.keys = [a.neg, b.neg] := by
      rw [Constraint.keys_clause hclause, Constraint.watchedLits,
        Constraint.watchers_clause hclause, hlits]
      rfl
    rw [WatchIndex.countIn, ha.lines.count h c hc l, hkeys]
    simp

/-- An at-most constraint is watched under the literals of which all but one have to be false. -/
theorem countIn_of_atMost (ha : n.Aligned dead n.index.line)
    (hc : n.store.get? h = some ⟨.atMost k, lits⟩) :
    k < lits.size ∧
      ∀ l, n.index.countIn l h = if l ∈ lits.toList.take (lits.size - k + 1) then 1 else 0 := by
  have hwf := ha.formed hc
  have hk := (hwf.bounds k rfl).2
  refine ⟨hk, fun l => ?_⟩
  have hwatchers : (⟨.atMost k, lits⟩ : Constraint).watchers = lits.size - k + 1 := by
    have := hwf.watchers_atMost rfl
    simp only [Constraint.size] at this hk
    omega
  rw [WatchIndex.countIn, ha.lines.count h _ hc l, Constraint.keys_atMost rfl,
    Constraint.watchedLits, hwatchers]

end Network

/-- A kempt engine has an exact index. -/
theorem Engine.Kempt.indexed {past : Handle → Lit → Prop} {e : Engine} (hk : e.Kempt past) :
    e.network.Indexed past where
  clause _ _ hc hclause := Network.countIn_of_clause hk.aligned hc hclause
  blocker h c hc hclause l x hx hxh := by
    subst hxh
    exact hk.traced l x hx c hc hclause
  atMost _ _ _ hc := Network.countIn_of_atMost hk.aligned hc
  freed l x hx hnone := by
    -- on a clean line every watcher has its constraint
    by_contra hclean
    rw [Bool.not_eq_true] at hclean
    obtain ⟨c, hc⟩ := hk.tended.clean l hclean x hx
    rw [hnone] at hc
    cases hc

variable {past : Handle → Lit → Prop} {s : Solver} {L : Ledger}

/-- Between any two calls of a solver its watch index is exact. Whatever the next call propagates,
each watcher that is visited then watches a constraint that is stored, and has no blocker but one of
a variable that is there. -/
theorem indexed_of_usage (hu : Usage s L past) :
    s.engine.network.Indexed past ∧
      ∀ e, s.Propagates L e ∨ s.Prompts e → ∀ m x, e.network.Visits m x → m.Visitable x := by
  obtain ⟨hup, hidle⟩ := upkept_of_usage hu
  refine ⟨hup.kempt.indexed, fun e he m x hx => ?_⟩
  rcases he with hcall | hsteer
  · have hk := kempt_of_propagates hup hidle hcall
    exact Network.visitable_of_visits hx hk.aligned hk.tended
  · have hk := kempt_of_prompts hup hidle hsteer
    exact Network.visitable_of_visits hx hk.aligned hk.tended

open Lit in
/-- A clause of three literals of which the first one was decided to be false. The clause is watched
under the complements of the others now, and the literal is the blocker of one of the watchers. -/
theorem indexed_after_decision :
    ∃ s past, Usage s { added := [.clause [x0, x1, x2]] } past ∧
      (s.engine.store.get? ⟨0⟩).map Constraint.lits = some #[x1, x2, x0] ∧
      (s.engine.network.index.line x1.neg).map Watcher.blocker = [some x0] ∧
      s.engine.network.Indexed past ∧
      ∀ e, s.Propagates { added := [.clause [x0, x1, x2]] } e ∨ s.Prompts e →
        ∀ m x, e.network.Visits m x → m.Visitable x := by
  have hpass : ((Solver.ofDemands 3 [.clause [x0, x1, x2]] >>= fun s =>
      s.decide x0.var false).toOption.any fun x =>
        (x.2.engine.store.get? ⟨0⟩).map Constraint.lits == some #[x1, x2, x0] &&
          (x.2.engine.network.index.line x1.neg).map Watcher.blocker == [some x0]) = true := by
    simp (disch := decide) only [Solver.ofDemands, Solver.addDemands, Solver.demand,
      Solver.addClause, Engine.addClause, Engine.addReduced, Lit.sortDistinct_of_pairwise]
    decide +kernel
  obtain ⟨s, ⟨b, s'⟩, hrun, hdecide, htest⟩ := exists_run_of_test hpass (by decide) (by decide)
  simp only [Bool.and_eq_true, beq_iff_eq] at htest
  obtain ⟨past, hu⟩ := exists_usage_of_run (hrun {})
  have hu' := hu.steer (.decide x0.var false hdecide)
  exact ⟨s', past, hu', htest.1, htest.2, indexed_of_usage hu'⟩

end CardSat
