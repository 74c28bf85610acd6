import CardSat.Proofs.Network

set_option autoImplicit false

/-! # Complete assignments

Where every variable has a value, everything is propagated and nothing is forgotten, the assignment
satisfies every constraint. A clause whose literals are all false would have a false watched
literal, so one of its literals is true. Of the watched literals of an at-most constraint one is
true at the most, and there are only `k - 1` others.

This is why a search may answer as soon as there is nothing left to decide, without looking at the
constraints again. The hypotheses are what is known then: no conflict was left standing, the queue
is empty, and the order of the variables was gone through to its end.
-/

namespace CardSat

namespace Network

variable {n : Network} {dead : Lit → Prop} {line : Lit → List Watcher} {h : Handle}
  {c : Constraint} {w : World}

/-- Of the watched literals of an at-most constraint one holds at the most: if one is true, it
supports the constraint, and the others are false. -/
theorem countP_holds_watchedLits (hc : c.WellFormed n.trail.varCount) (ha : c.isAtMost = true)
    (htrue : ∀ l ∈ n.trail, l.holds w = true)
    (htotal : ∀ l ∈ c.lits.toList, l.holds w = true → l ∈ n.trail)
    (hsup : ∀ key ∈ c.watchedLits, key ∈ n.trail → c.Supported n.trail key) :
    c.watchedLits.countP (Lit.holds w) ≤ 1 := by
  by_contra hlt
  obtain ⟨key, hkey, hkw⟩ := List.countP_pos_iff.1 (by omega : 0 < c.watchedLits.countP (Lit.holds w))
  have hkt := htotal key (Constraint.mem_of_mem_watchedLits hkey) hkw
  have hnd : c.watchedLits.Nodup := hc.nodup.sublist (List.take_sublist _ _)
  -- the others are false, so `key` alone counts
  have hle : c.watchedLits.countP (Lit.holds w) ≤ c.watchedLits.countP (· == key) := by
    refine List.countP_mono_left fun l hl hlw => ?_
    by_contra hne
    have hln := ((hsup key hkey hkt).atMost ha l hl (by simpa using hne)).1
    have := htrue _ hln
    rw [Lit.holds_neg, hlw] at this
    cases this
  have hone : c.watchedLits.countP (· == key) ≤ 1 := by
    rw [← List.count_eq_countP]
    exact List.nodup_iff_count_le_one.1 hnd key
  omega

/-- A complete assignment that forgets nothing satisfies every constraint. -/
theorem holds_of_complete (hs : n.Sane dead line) (hw : n.Watching fun _ _ => False)
    (hidle : n.trail.head = n.trail.lits.size)
    (htotal : ∀ v : Var, v.index < n.trail.varCount → ∃ l ∈ n.trail, l.var = v)
    (htrue : ∀ l ∈ n.trail, l.holds w = true) (hc : n.store.get? h = some c) :
    c.holds w = true := by
  have hcf := hs.formed h c hc
  have hdone : ∀ l ∈ n.trail, l ∈ n.trail.done := fun l hl => by
    rw [Trail.done, hidle, ← Array.length_toList, List.take_length]
    exact hl
  have hsup : ∀ key ∈ c.keys, key ∈ n.trail → c.Supported n.trail key := fun key hk hkt =>
    (hw h c hc key hk (hdone key hkt)).resolve_left id
  have hmem : ∀ l ∈ c.lits.toList, l.holds w = true → l ∈ n.trail := by
    intro l hl hlw
    obtain ⟨m, hm, hmv⟩ := htotal l.var (hcf.known l hl)
    rcases Lit.eq_or_eq_neg hmv with rfl | rfl
    · exact hm
    · have := htrue _ hm
      rw [Lit.holds_neg, hlw] at this
      cases this
  cases ha : c.isAtMost with
  | false =>
      rw [Constraint.holds_of_not_isAtMost ha, World.clauseHolds_iff]
      -- a watched literal would be false, and what supports its key is a true literal
      by_contra hno
      push Not at hno
      have hlen : 0 < c.watchedLits.length := by
        rw [Constraint.watchedLits, List.length_take, Array.length_toList,
          Constraint.watchers_clause ha]
        have : 2 ≤ c.lits.size := hcf.two_le
        omega
      obtain ⟨l, hl⟩ := List.exists_mem_of_length_pos hlen
      have hlc := Constraint.mem_of_mem_watchedLits hl
      have hln : l.neg ∈ n.trail := by
        obtain ⟨m, hm, hmv⟩ := htotal l.var (hcf.known l hlc)
        rcases Lit.eq_or_eq_neg hmv with rfl | rfl
        · exact absurd (htrue _ hm) (hno _ hlc)
        · exact hm
      obtain ⟨b, hb, hbt, -⟩ := (hsup l.neg ((Constraint.mem_keys_clause ha).2
        (by rwa [Lit.neg_neg])) hln).clause ha
      exact hno b hb (htrue b hbt)
  | true =>
      obtain ⟨k, hk⟩ := Constraint.isAtMost_eq_true.1 ha
      rw [Constraint.holds_of_atMost hk, World.atMostHolds, World.count_of_nodup hcf.nodup,
        decide_eq_true_iff]
      -- at most one watched literal is true, and only `bound - 1` literals are not watched
      have hone := countP_holds_watchedLits hcf ha htrue hmem
        (fun key hkey => hsup key (Constraint.keys_atMost ha ▸ hkey))
      have hsplit : c.lits.toList.countP (Lit.holds w) =
          (c.lits.toList.take c.watchers).countP (Lit.holds w) +
            (c.lits.toList.drop c.watchers).countP (Lit.holds w) := by
        rw [← List.countP_append, List.take_append_drop]
      have hrest : (c.lits.toList.drop c.watchers).countP (Lit.holds w) ≤ c.size - c.watchers := by
        refine Nat.le_trans List.countP_le_length ?_
        rw [List.length_drop, Array.length_toList]
        exact Nat.le_refl _
      have hwatch := hcf.watchers_atMost hk
      rw [Constraint.watchedLits] at hone
      have := (hcf.bounds k hk).1
      omega

end Network

end CardSat
