import CardSat.Proofs.Constraint

set_option autoImplicit false

/-! # Rearranging literals

`swap` exchanges two literals of a constraint and `pull` brings an unwatched literal into a watched
place. A pull that succeeds changes the watched literals by one (`mem_watchedLits_pulled`); one that
finds nothing has tested every unwatched literal.

Simplification drops literals from the third on by putting the last one in the place of a literal
that goes (`retainFrom`). What is left is a permutation of what a filter would leave, so nothing
later depends on the order.

Each operation is described by one lemma with `eq_ok` or `eq_some` in its name, and proofs about
constraints use these lemmas and not the definitions.
-/

namespace CardSat

namespace Constraint

/-- What a swap leaves at each position. -/
theorem swap_eq_ok {c c' : Constraint} {i j : Nat} (h : c.swap i j = .ok c') :
    c'.kind = c.kind ∧ i < c.size ∧ j < c.size ∧
      ∀ k, c'.lits.toList[k]? =
        if k = j then c.lits.toList[i]? else if k = i then c.lits.toList[j]? else
          c.lits.toList[k]? := by
  simp only [swap, bind_eq_ok, require_eq_ok, pure_eq_ok, decide_eq_true_eq] at h
  obtain ⟨_, ⟨hi, hj⟩, rfl⟩ := h
  refine ⟨rfl, hi, hj, fun k => ?_⟩
  have hi' : i < c.lits.size := hi
  have hj' : j < c.lits.size := hj
  rw [Array.swapIfInBounds_def, dif_pos hi', dif_pos hj']
  simp only [Array.getElem?_toList, Array.getElem?_swap, Array.getElem?_eq_getElem hi',
    Array.getElem?_eq_getElem hj', eq_comm]

/-- Exchanging the two watched literals of a clause leaves them watched. -/
theorem mem_watchedLits_swap_head {c c' : Constraint} (h : c.swap 0 1 = .ok c')
    (hc : c.isAtMost = false) (l : Lit) : l ∈ c'.watchedLits ↔ l ∈ c.watchedLits := by
  have hs := same_swap h
  obtain ⟨-, h0, h1, hget⟩ := swap_eq_ok h
  have hw : c'.watchers = c.watchers := hs.watchers_eq
  simp only [watchedLits, hw, watchers_clause hc, List.mem_iff_getElem?, List.getElem?_take]
  constructor
  · rintro ⟨k, hk⟩
    split at hk
    next hlt =>
        rw [hget] at hk
        rcases (by omega : k = 0 ∨ k = 1) with rfl | rfl
        · exact ⟨1, by simpa using hk⟩
        · exact ⟨0, by simpa using hk⟩
    next => cases hk
  · rintro ⟨k, hk⟩
    split at hk
    next hlt =>
        rcases (by omega : k = 0 ∨ k = 1) with rfl | rfl
        · exact ⟨1, by simpa [hget] using hk⟩
        · exact ⟨0, by simpa [hget] using hk⟩
    next => cases hk

/-- A literal that was found passes the test, and its position is counted from the start given. -/
theorem findFrom_eq_some {test : Lit → Checked Bool} {ls : List Lit} {i j : Nat}
    (h : findFrom test ls i = .ok (some j)) :
    ∃ k l, j = i + k ∧ ls[k]? = some l ∧ test l = .ok true := by
  induction ls generalizing i with
  | nil => simp [findFrom] at h
  | cons a ls ih =>
      simp only [findFrom, bind_eq_ok] at h
      obtain ⟨b, hb, h⟩ := h
      cases b with
      | true =>
          simp only [if_true, pure_eq_ok, Option.some.injEq] at h
          exact ⟨0, a, by omega, rfl, hb⟩
      | false =>
          obtain ⟨k, l, rfl, hl, ht⟩ := ih (by simpa using h)
          exact ⟨k + 1, l, by omega, by simpa using hl, ht⟩

/-- If nothing was found, no literal passes the test. -/
theorem findFrom_eq_none {test : Lit → Checked Bool} {ls : List Lit} {i : Nat}
    (h : findFrom test ls i = .ok none) : ∀ l ∈ ls, test l = .ok false := by
  induction ls generalizing i with
  | nil => intro l hl; cases hl
  | cons a ls ih =>
      simp only [findFrom, bind_eq_ok] at h
      obtain ⟨b, hb, h⟩ := h
      cases b with
      | true => simp [pure_eq_ok] at h
      | false =>
          intro l hl
          rcases List.mem_cons.1 hl with rfl | hl
          · exact hb
          · exact ih (by simpa using h) l hl

/-- If nothing was pulled, no unwatched literal passes the test. -/
theorem pull_eq_none {c : Constraint} {place : Nat} {test : Lit → Checked Bool}
    (h : c.pull place test = .ok none) :
    ∀ l ∈ c.lits.toList.drop c.watchers, test l = .ok false := by
  simp only [pull, bind_eq_ok] at h
  obtain ⟨o, ho, h⟩ := h
  cases o with
  | none => exact findFrom_eq_none ho
  | some i => simp [bind_eq_ok, map_eq_ok] at h

/-- What a successful pull does: `c'` is `c` with the literal at a watched place exchanged for
the unwatched literal `l`. -/
structure Pulled (c : Constraint) (place : Nat) (l : Lit) (c' : Constraint) : Prop where
  same : c.Same c'
  kind : c'.kind = c.kind
  unwatched : l ∈ c.lits.toList.drop c.watchers
  watched : place < c.watchers → c'.watchedLits = c.watchedLits.set place l
  head : 0 < place → place < c.watchers → c'.lits.toList.head? = c.lits.toList.head?

/-- A literal that was pulled passes the test, and it was not watched. -/
theorem pull_eq_some {c c' : Constraint} {place : Nat} {l : Lit} {test : Lit → Checked Bool}
    (h : c.pull place test = .ok (some (l, c'))) : c.Pulled place l c' ∧ test l = .ok true := by
  simp only [pull, bind_eq_ok] at h
  obtain ⟨o, ho, h⟩ := h
  cases o with
  | none => simp [pure_eq_ok] at h
  | some j =>
      simp only [bind_eq_ok, pure_eq_ok, fetch_eq_ok, Option.some.injEq, Prod.mk.injEq] at h
      obtain ⟨c₁, hswap, l₁, hl₁, rfl, rfl⟩ := h
      obtain ⟨k, l, rfl, hl, htest⟩ := findFrom_eq_some ho
      rw [List.getElem?_drop] at hl
      obtain ⟨hkind, hj, hp, hget⟩ := swap_eq_ok hswap
      have hll : l₁ = l := by
        rw [← Array.getElem?_toList, hget, if_pos rfl, hl] at hl₁
        exact (Option.some.inj hl₁).symm
      subst hll
      refine ⟨⟨same_swap hswap, hkind, ?_, ?_, ?_⟩, htest⟩
      · exact List.mem_iff_getElem?.2 ⟨k, by rw [List.getElem?_drop, hl]⟩
      -- the watched literals are the first ones, and only the one at `place` is exchanged
      · intro hlt
        apply List.ext_getElem?
        intro i
        rw [watchedLits, (same_swap hswap).watchers_eq, List.getElem?_take, hget,
          List.getElem?_set, watchedLits, List.getElem?_take, List.length_take]
        have hlen : c.lits.toList.length = c.size := by simp [size]
        by_cases hi : i = place
        · subst hi
          have hmin : i < min c.watchers c.size := Nat.lt_min.2 ⟨hlt, hp⟩
          simp [hlt, hl, hlen, hmin]
        · by_cases hiw : i < c.watchers
          · simp [hiw, hi, Ne.symm hi, show i ≠ c.watchers + k by omega]
          · simp [hiw, Ne.symm hi]
      · intro hpos hlt
        rw [List.head?_eq_getElem?, List.head?_eq_getElem?, hget, if_neg (by omega),
          if_neg (by omega)]

/-- The literals watched after a pull: the new one, and the old ones but the one at its
place. -/
theorem mem_watchedLits_pulled {c c' : Constraint} {place n : Nat} {l p : Lit}
    (hc : c.WellFormed n) (h : c.Pulled place l c') (hp : c.watchedLits[place]? = some p)
    (m : Lit) : m ∈ c'.watchedLits ↔ m = l ∨ m ∈ c.watchedLits ∧ m ≠ p := by
  have hplace : place < c.watchedLits.length := (List.getElem?_eq_some_iff.1 hp).1
  have hlt : place < c.watchers :=
    Nat.lt_of_lt_of_le hplace (List.length_take_le _ _)
  have hnd : c.watchedLits.Nodup := hc.nodup.sublist (List.take_sublist _ _)
  rw [h.watched hlt, List.mem_iff_getElem?]
  simp only [List.getElem?_set]
  constructor
  · rintro ⟨i, hi⟩
    split at hi
    next heq =>
        exact Or.inl (Option.some.inj hi).symm
    next hne =>
        refine Or.inr ⟨List.mem_of_getElem? hi, ?_⟩
        -- the literal at the place has gone, and it stood there only
        rintro rfl
        exact hne ((List.getElem?_inj hplace hnd).1 (hp.trans hi.symm))
  · rintro (rfl | ⟨hm, hne⟩)
    · exact ⟨place, by rw [if_pos rfl, if_pos hplace]⟩
    · obtain ⟨i, hi⟩ := List.mem_iff_getElem?.1 hm
      refine ⟨i, ?_⟩
      rw [if_neg, hi]
      rintro rfl
      exact hne (Option.some.inj (hi.symm.trans hp))

/-- An unwatched literal does not occur among the watched ones, since the literals are distinct. -/
theorem not_mem_watchedLits_of_unwatched {c : Constraint} {n : Nat} {l : Lit}
    (hc : c.WellFormed n) (hl : l ∈ c.lits.toList.drop c.watchers) : l ∉ c.watchedLits := by
  intro hw
  have hnd := hc.nodup
  rw [← List.take_append_drop c.watchers c.lits.toList, List.nodup_append] at hnd
  exact hnd.2.2 _ hw _ hl rfl

/-! ## Dropping literals

The loop looks at a position again after it has put the last literal there, so it ends because the
array gets shorter or the position moves on. -/

/-- The literals before the dropped one stay where they are. -/
theorem take_dropped {lits : Array Lit} {i : Nat} (hi : i < lits.size) (x : Lit) :
    ((lits.set i x).pop).toList.take i = lits.toList.take i := by
  rw [Array.toList_pop, Array.toList_set, List.dropLast_eq_take, List.take_take, Nat.min_eq_left
    (by simp only [List.length_set, Array.length_toList]; omega), List.take_set_of_le (Nat.le_refl i)]

/-- The literals from the dropped one on are the dropped one and the others. -/
theorem drop_dropped {lits : Array Lit} {i : Nat} (hi : i < lits.size) (hpos : 0 < lits.size) :
    (lits.toList.drop i).Perm
      (lits[i] :: ((lits.set i (lits.back hpos)).pop).toList.drop i) := by
  have hlen : i < lits.toList.length := by rwa [Array.length_toList]
  have hfirst : (lits.toList.drop i)[0]? = some lits[i] := by
    rw [List.drop_eq_getElem_cons hlen, Array.getElem_toList]
    rfl
  have hlast : lits.back hpos = (lits.toList.drop i).getLast?.getD lits[i] := by
    rw [List.getLast?_drop, if_neg (by rw [Array.length_toList]; omega), Array.getLast?_toList,
      Array.back?_eq_getElem?, Array.getElem?_eq_getElem (by omega), Option.getD_some,
      Array.back_eq_getElem]
  have hset : ((lits.set i (lits.back hpos)).pop).toList.drop i =
      ((lits.toList.drop i).set 0 (lits.back hpos)).dropLast := by
    rw [Array.toList_pop, Array.toList_set, List.dropLast_eq_take, List.dropLast_eq_take,
      List.drop_take, List.drop_set, if_neg (by omega), Nat.sub_self]
    simp only [List.length_set, List.length_drop]
    congr 1
    omega
  rw [hset, hlast]
  exact perm_last_to_front hfirst

/-- The literals from position `i` on that are kept are those that pass the test. -/
theorem retainFrom_ok {test : Lit → Checked Bool} {p : Lit → Bool}
    (hp : ∀ l r, test l = .ok r → r = p l) : ∀ {lits lits' : Array Lit} {i : Nat},
    i ≤ lits.size → retainFrom test lits i = .ok lits' →
    lits'.toList.take i = lits.toList.take i ∧
      (lits'.toList.drop i).Perm ((lits.toList.drop i).filter p) := by
  intro lits lits' i
  induction hn : lits.size - i using Nat.strongRecOn generalizing lits i with
  | ind n ih =>
      intro hi h
      rw [retainFrom] at h
      split at h
      next hlt =>
          have hlt' : i < lits.toList.length := by rwa [Array.length_toList]
          have hdrop : lits.toList.drop i = lits[i] :: lits.toList.drop (i + 1) := by
            rw [List.drop_eq_getElem_cons hlt', Array.getElem_toList]
          simp only [bind_eq_ok] at h
          obtain ⟨b, hb, h⟩ := h
          have hpb := hp _ _ hb
          split at h
          next hyes =>
              obtain ⟨htake, hperm⟩ := ih (lits.size - (i + 1)) (by omega) rfl hlt h
              have hlen : i < lits'.toList.length := by
                have := congrArg List.length htake
                simp only [List.length_take] at this
                omega
              have hget : lits'.toList[i] = lits[i] := by
                have := congrArg (fun ls => ls[i]?) htake
                simp only [List.getElem?_take, if_pos (Nat.lt_succ_self i),
                  List.getElem?_eq_getElem hlen, List.getElem?_eq_getElem hlt',
                  Array.getElem_toList, Option.some.injEq] at this
                rw [Array.getElem_toList]
                exact this
              refine ⟨?_, ?_⟩
              · have := congrArg (List.take i) htake
                simpa [List.take_take] using this
              · rw [hdrop, List.drop_eq_getElem_cons hlen, hget,
                  List.filter_cons_of_pos (by rw [← hpb, hyes])]
                exact hperm.cons _
          next hno =>
              -- the last literal is tested in the place of the dropped one
              have hsize : ((lits.set i (lits.back (by omega))).pop).size = lits.size - 1 := by
                simp
              obtain ⟨htake, hperm⟩ := ih (lits.size - 1 - i) (by omega) (by rw [hsize])
                (by rw [hsize]; omega) h
              refine ⟨htake.trans (take_dropped hlt _), hperm.trans ?_⟩
              have hmove := (drop_dropped hlt (by omega)).filter p
              rw [List.filter_cons_of_neg (by rw [← hpb]; simpa using hno)] at hmove
              exact hmove.symm
      next hge =>
          obtain rfl := pure_eq_ok.1 h
          have : lits.toList.drop i = [] :=
            List.drop_eq_nil_of_le (by rw [Array.length_toList]; omega)
          exact ⟨rfl, by rw [this]; exact List.Perm.refl _⟩

/-- What is left are the first literals and those of the others that pass the test. -/
theorem perm_of_retainFrom {test : Lit → Checked Bool} {p : Lit → Bool}
    (hp : ∀ l r, test l = .ok r → r = p l) {lits lits' : Array Lit} {i : Nat} (hi : i ≤ lits.size)
    (h : retainFrom test lits i = .ok lits') :
    lits'.toList.Perm (lits.toList.take i ++ (lits.toList.drop i).filter p) := by
  obtain ⟨htake, hperm⟩ := retainFrom_ok hp hi h
  rw [← List.take_append_drop i lits'.toList, htake]
  exact hperm.append_left _

/-- What is left are literals that were there. -/
theorem subperm_of_retainFrom {test : Lit → Checked Bool} {p : Lit → Bool}
    (hp : ∀ l r, test l = .ok r → r = p l) {lits lits' : Array Lit} {i : Nat} (hi : i ≤ lits.size)
    (h : retainFrom test lits i = .ok lits') : lits'.toList.Subperm lits.toList := by
  have hsub := (List.filter_sublist (p := p) (l := lits.toList.drop i)).append_left
    (lits.toList.take i)
  rw [List.take_append_drop] at hsub
  exact (perm_of_retainFrom hp hi h).subperm.trans hsub.subperm

/-- Dropping literals from the third on. -/
theorem retainSuffix_eq_ok {test : Lit → Checked Bool} {p : Lit → Bool} {c c' : Constraint}
    (hp : ∀ l r, test l = .ok r → r = p l) (htwo : 2 ≤ c.size)
    (h : c.retainSuffix 2 test = .ok c') :
    c' = { c with lits := c'.lits } ∧ c'.lits.toList.Subperm c.lits.toList ∧ 2 ≤ c'.size := by
  simp only [retainSuffix, bind_eq_ok, pure_eq_ok] at h
  obtain ⟨lits, hlits, rfl⟩ := h
  refine ⟨rfl, subperm_of_retainFrom hp htwo hlits, ?_⟩
  have hlen := (perm_of_retainFrom hp htwo hlits).length_eq
  simp only [size, List.length_append, List.length_take, Array.length_toList] at hlen htwo ⊢
  omega

end Constraint

end CardSat
