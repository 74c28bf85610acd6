import CardSat.Proofs.Propagation

set_option autoImplicit false

/-! # The fixpoint of propagation

Where everything is propagated and no constraint is forgotten, no stored constraint forces anything
more (`Constraint.AtFixpoint`). The watched literals show it: if those of a clause are not false
there are two of them without a value, and an at-most constraint of which a watched literal is true
has no other watched literal that is not false.

The fixpoint is stated for a constraint and the values of its literals, without watches. So it can
be read by someone who only knows the constraints, and it does not change if the literals are
rearranged (`AtFixpoint.same`). That nothing is violated is part of it.
-/

namespace CardSat

namespace Constraint

/-- The constraint is not violated, and it forces nothing: a clause has a true literal or at
least two without a value, and an at-most constraint has no more true literals than its bound,
and none without a value once the bound is reached. -/
structure AtFixpoint (c : Constraint) (t : Trail) : Prop where
  clause : c.isAtMost = false → (∃ l ∈ c.lits.toList, t.truth l = .yes) ∨
    2 ≤ c.lits.toList.countP fun l => t.truth l = .unset
  atMost : ∀ k, c.kind = .atMost k → (c.lits.toList.countP fun l => t.truth l = .yes) ≤ k ∧
    ((c.lits.toList.countP fun l => t.truth l = .yes) = k →
      ∀ l ∈ c.lits.toList, t.truth l ≠ .unset)

variable {c : Constraint} {t : Trail} {n k : Nat}

/-- The watched literals of a clause without a true literal, if its true keys are supported. -/
theorem unset_of_mem_watchedLits (hv : t.Valid) (ha : c.isAtMost = false)
    (hsup : ∀ key ∈ c.keys, key ∈ t → c.Supported t key)
    (hno : ∀ l ∈ c.lits.toList, t.truth l ≠ .yes) : ∀ l ∈ c.watchedLits, t.truth l = .unset := by
  intro l hl
  rw [hv.truth_unset]
  refine ⟨fun hm => hno l (mem_of_mem_watchedLits hl) ((hv.truth_yes l).2 hm), fun hm => ?_⟩
  -- a watched literal that is false would be supported by a true one
  have hkey : l.neg ∈ c.keys := (mem_keys_clause ha).2 (by rwa [Lit.neg_neg])
  obtain ⟨b, hb, hbt, -⟩ := (hsup l.neg hkey hm).clause ha
  exact hno b hb ((hv.truth_yes b).2 hbt)

/-- A clause whose true keys are supported. -/
theorem clause_atFixpoint (hv : t.Valid) (hc : c.WellFormed n) (ha : c.isAtMost = false)
    (hsup : ∀ key ∈ c.keys, key ∈ t → c.Supported t key) :
    (∃ l ∈ c.lits.toList, t.truth l = .yes) ∨
      2 ≤ c.lits.toList.countP fun l => t.truth l = .unset := by
  by_cases hyes : ∃ l ∈ c.lits.toList, t.truth l = .yes
  · exact Or.inl hyes
  right
  have hopen := unset_of_mem_watchedLits hv ha hsup fun l hl hl' => hyes ⟨l, hl, hl'⟩
  have hsub : c.watchedLits.Sublist c.lits.toList := List.take_sublist _ _
  have hlen : c.watchedLits.length = 2 := by
    rw [length_watchedLits hc, watchers_clause ha]
  calc 2 = c.watchedLits.countP fun l => t.truth l = .unset := by
        rw [List.countP_eq_length.2 fun l hl => decide_eq_true (hopen l hl), hlen]
    _ ≤ _ := hsub.countP_le

/-- A watched literal of an at-most constraint that is true is the only one that is not false,
if it is supported. -/
theorem countP_yes_watchedLits (hv : t.Valid) (hc : c.WellFormed n) (ha : c.isAtMost = true)
    {key : Lit} (hsup : c.Supported t key) :
    (∀ l ∈ c.watchedLits, l ≠ key → t.truth l = .no) ∧
      (c.watchedLits.countP fun l => t.truth l = .yes) ≤ 1 := by
  have hno : ∀ l ∈ c.watchedLits, l ≠ key → t.truth l = .no := fun l hl hne =>
    (hv.truth_no l).2 (hsup.atMost ha l hl hne).1
  have hnd : c.watchedLits.Nodup := hc.nodup.sublist (List.take_sublist _ _)
  refine ⟨hno, ?_⟩
  calc (c.watchedLits.countP fun l => t.truth l = .yes)
      ≤ c.watchedLits.countP (· == key) := List.countP_mono_left fun l hl hyes => by
        by_contra hne
        have := hno l hl (by simpa using hne)
        simp [this] at hyes
    _ ≤ 1 := by
        rw [← List.count_eq_countP]
        exact List.nodup_iff_count_le_one.1 hnd key

/-- An at-most constraint whose true keys are supported. -/
theorem atMost_atFixpoint (hv : t.Valid) (hc : c.WellFormed n) (hk : c.kind = .atMost k)
    (hsup : ∀ key ∈ c.keys, key ∈ t → c.Supported t key) :
    (c.lits.toList.countP fun l => t.truth l = .yes) ≤ k ∧
      ((c.lits.toList.countP fun l => t.truth l = .yes) = k →
        ∀ l ∈ c.lits.toList, t.truth l ≠ .unset) := by
  have ha := isAtMost_of_kind hk
  have hwk := hc.watchers_atMost hk
  have hbounds := hc.bounds k hk
  have hsplit := countP_watchedLits_add (c := c) fun l => t.truth l = .yes
  have hlen : (c.lits.toList.drop c.watchers).length = c.size - c.watchers := by
    rw [List.length_drop, Array.length_toList]
    rfl
  have hrest := List.countP_le_length (p := fun l => decide (t.truth l = .yes))
    (l := c.lits.toList.drop c.watchers)
  by_cases hex : ∃ key ∈ c.watchedLits, key ∈ t
  · obtain ⟨key, hkey, hkt⟩ := hex
    obtain ⟨hno, hone⟩ := countP_yes_watchedLits hv hc ha
      (hsup key (keys_atMost ha ▸ hkey) hkt)
    refine ⟨by omega, fun heq l hl hu => ?_⟩
    -- the bound is reached, so every unwatched literal is true
    have hall : (c.lits.toList.drop c.watchers).countP (fun l => t.truth l = .yes) =
        (c.lits.toList.drop c.watchers).length := by omega
    rw [← List.take_append_drop c.watchers c.lits.toList, List.mem_append] at hl
    rcases hl with hl | hl
    · by_cases hlk : l = key
      · rw [hlk, (hv.truth_yes key).2 hkt] at hu
        cases hu
      · rw [hno l hl hlk] at hu
        cases hu
    · have := List.countP_eq_length.1 hall l hl
      simp [hu] at this
  · have hnone : (c.watchedLits.countP fun l => t.truth l = .yes) = 0 := by
      rw [List.countP_eq_zero]
      intro l hl hyes
      exact hex ⟨l, hl, (hv.truth_yes l).1 (of_decide_eq_true hyes)⟩
    exact ⟨by omega, fun heq => by omega⟩

/-- A constraint is at its fixpoint if every key of it that is true supports it, whatever its
kind. -/
theorem atFixpoint_of_supported (hv : t.Valid) (hc : c.WellFormed n)
    (hsup : ∀ key ∈ c.keys, key ∈ t → c.Supported t key) : c.AtFixpoint t :=
  ⟨fun ha => clause_atFixpoint hv hc ha hsup, fun _ hk => atMost_atFixpoint hv hc hk hsup⟩

/-- The fixpoint leaves no constraint violated. -/
theorem AtFixpoint.not_falsified (h : c.AtFixpoint t) (hv : t.Valid) : ¬ c.Falsified t := by
  intro hf
  cases ha : c.isAtMost with
  | false =>
      have hno : ∀ l ∈ c.lits.toList, t.truth l = .no := fun l hl =>
        (hv.truth_no l).2 (hf.clause ha l hl)
      rcases h.clause ha with ⟨l, hl, hyes⟩ | htwo
      · rw [hno l hl] at hyes
        cases hyes
      · obtain ⟨l, hl, hu⟩ := List.countP_pos_iff.1 (Nat.lt_of_lt_of_le Nat.two_pos htwo)
        rw [hno l hl] at hu
        cases of_decide_eq_true hu
  | true =>
      obtain ⟨k, hk⟩ := isAtMost_eq_true.1 ha
      exact absurd (hf.atMost k hk) (Nat.not_lt.2 (h.atMost k hk).1)

/-- Rearranging a constraint does not change whether it is at its fixpoint. -/
theorem AtFixpoint.same {c' : Constraint} (h : c.AtFixpoint t) (hs : c.Same c') :
    c'.AtFixpoint t where
  clause ha := by
    rw [hs.perm.countP_eq]
    exact (h.clause (hs.isAtMost_eq ▸ ha)).imp_left fun ⟨l, hl, hyes⟩ => ⟨l, hs.mem_iff.2 hl, hyes⟩
  atMost k hk := by
    rw [hs.perm.countP_eq]
    exact (h.atMost k (hs.kind_atMost.1 hk)).imp_right fun hfull heq l hl =>
      hfull heq l (hs.mem_iff.1 hl)

end Constraint

namespace Network

variable {n : Network} {dead : Lit → Prop} {line : Lit → List Watcher} {h : Handle}
  {c : Constraint}

/-- Where nothing waits and nothing is forgotten, the true keys of stored constraints are
supported. -/
theorem Watching.supported (hw : n.Watching fun _ _ => False)
    (hidle : n.trail.head = n.trail.lits.size) (hc : n.store.get? h = some c) :
    ∀ key ∈ c.keys, key ∈ n.trail → c.Supported n.trail key := by
  intro key hk hkt
  refine (hw h c hc key hk ?_).resolve_left id
  rw [Trail.done, hidle, ← Array.length_toList, List.take_length]
  exact hkt

/-- Every stored constraint is at its fixpoint then. -/
theorem Watching.atFixpoint (hw : n.Watching fun _ _ => False) (hs : n.Sane dead line)
    (hidle : n.trail.head = n.trail.lits.size) (hc : n.store.get? h = some c) :
    c.AtFixpoint n.trail :=
  Constraint.atFixpoint_of_supported hs.trail (hs.formed h c hc) (hw.supported hidle hc)

end Network

end CardSat
