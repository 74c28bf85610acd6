import CardSat.Proofs.Analysis.Redundancy

set_option autoImplicit false

/-! # What is learnt from a conflict

The lesson of a conflict is right (`Lesson.Right`): it holds in the worlds of interest, and on the
trail it has the shape that makes it force a literal after going back.

The proof follows the analysis in its three parts. The walk down the trail ends with a clause that
is false and has one literal of the current level (`Derivation.derived_of_resolve`, in
`Proofs/Analysis/Derivation`). Minimisation takes literals away from it, each of which is explained
by others (`minimised_of_minimise`), so what is left still holds (`clauseHolds_of_minimised`). At
last a literal of the highest level among the others is brought to the second place
(`lesson_right`), which makes it the level to go back to.

`lesson_of_analyze` puts the parts together. It also says that the marks are clear again, which is
what the next analysis starts from. The worlds of interest are a parameter `R`: they are those of
the problem where facts are learnt for good, and any that the stored constraints admit where only
the search is concerned.
-/

namespace CardSat

/-- A clause that forces its first literal at a level below the current one, to which its
second literal belongs. -/
structure Asserting (t : Trail) (level : Nat) (lits : List Lit) : Prop where
  below : level < t.level
  two_le : 2 ≤ lits.length
  distinct : (lits.map Lit.var).Nodup
  first : ∃ l, lits.head? = some l ∧ l.neg ∈ t ∧ t.levelOf l.var = t.level
  tail : ∀ l ∈ lits.tail, l.neg ∈ t ∧ 0 < t.levelOf l.var ∧ t.levelOf l.var ≤ level
  second : ∃ l, lits[1]? = some l ∧ t.levelOf l.var = level

/-- What a lesson promises. -/
def Lesson.Right (t : Trail) (R : World → Prop) : Lesson → Prop
  | unsatisfiable => t.level = 0
  | unit l => 0 < t.level ∧ l.neg ∈ t ∧ t.levelOf l.var = t.level ∧ ∀ w, R w → l.holds w = true
  | clause level lits =>
      Asserting t level lits.toList ∧ ∀ w, R w → w.clauseHolds lits.toList = true

namespace Analysis

variable {store : Store} {t : Trail}

/-! ## Minimisation

The three modes differ in what they leave out, but for the clause it only matters that a literal
that is missing is explained. All modes clear the marks of the clause and of what the search has
touched. -/

/-- What minimisation leaves of a clause: every literal that is missing is explained. -/
structure Minimised (store : Store) (t : Trail) (rest kept : List Lit) : Prop where
  sublist : kept.Sublist rest
  missing : ∀ l ∈ rest, l ∈ kept ∨ Explained store t (fun v => v ∈ rest.map Lit.var) l.var

/-- The deep mode goes through the other literals in order. One that the search finds redundant is
left out, with the explanation that the search has found; the others stay in their order. -/
theorem minimised_of_dropRedundant {S : Var → Prop} : ∀ {rest : List Lit} {kept ls : Array Lit}
    {p p' : Probe}, p.Sensible store t S →
    dropRedundant store t rest kept p = .ok (ls, p') → p'.Sensible store t S ∧
      ∃ ks, ls.toList = kept.toList ++ ks ∧ ks.Sublist rest ∧
        ∀ l ∈ rest, l ∈ ks ∨ Explained store t S l.var := by
  intro rest
  induction rest with
  | nil =>
      intro kept ls p p' hp h
      simp only [dropRedundant, pure_eq_ok, Prod.mk.injEq] at h
      obtain ⟨rfl, rfl⟩ := h
      exact ⟨hp, [], by simp, List.Sublist.refl _, by simp⟩
  | cons l rest ih =>
      intro kept ls p p' hp h
      simp only [dropRedundant, bind_eq_ok] at h
      obtain ⟨⟨b, p₁⟩, hred, h⟩ := h
      obtain ⟨hp₁, hex⟩ := sensible_of_redundant hp hred
      cases b with
      -- a literal is left out only if the others explain it, and the marks say so from now on
      | true =>
          obtain ⟨hp', ks, hls, hsub, hmiss⟩ := ih hp₁ h
          refine ⟨hp', ks, hls, hsub.cons l, fun a ha => ?_⟩
          rcases List.mem_cons.1 ha with rfl | ha
          · exact Or.inr (hex rfl)
          · exact hmiss a ha
      | false =>
          obtain ⟨hp', ks, hls, hsub, hmiss⟩ := ih hp₁ h
          refine ⟨hp', l :: ks, by simpa using hls, hsub.cons_cons l, fun a ha => ?_⟩
          rcases List.mem_cons.1 ha with rfl | ha
          · exact Or.inl (by simp)
          · exact (hmiss a ha).imp_left (List.mem_cons_of_mem l)

/-- In every mode the first literal stays, what is missing of the others is explained, and all marks
are cleared, also those that the search has made on variables outside the clause. -/
theorem minimised_of_minimise {m : Minimisation} {marks marks' : Marks} {first : Lit}
    {rest : List Lit} {ls : Array Lit}
    (hm : ∀ v, marks.markOf v = .clear ∨ marks.markOf v = .inClause ∧ v ∈ rest.map Lit.var)
    (h : minimise m store t marks first rest = .ok (ls, marks')) :
    marks'.Clean ∧ ∃ kept, ls.toList = first :: kept ∧ Minimised store t rest kept := by
  have hS : ∀ v, marks.markOf v ≠ .clear → v ∈ rest.map Lit.var := fun v hv =>
    ((hm v).resolve_left hv).2
  -- all three ways end by clearing the marks of the clause and of what was looked at beside it
  have hclean : ∀ (more : List Lit) {marks₁ marks' : Marks},
      (∀ v, marks₁.markOf v ≠ .clear → v ∈ rest.map Lit.var ∨ v ∈ more.map Lit.var) →
      marks₁.clearAll (first :: (rest ++ more)) = .ok marks' → marks'.Clean := by
    intro more marks₁ marks' hall hclear v
    rw [Marks.clearAll_eq_ok hclear]
    split
    next => rfl
    next hv =>
        by_contra hne
        refine hv (List.mem_cons_of_mem _ ?_)
        rw [List.map_append, List.mem_append]
        exact hall v hne
  cases m with
  | never =>
      simp only [minimise, bind_eq_ok, pure_eq_ok, Prod.mk.injEq] at h
      obtain ⟨marks₁, hclear, rfl, rfl⟩ := h
      refine ⟨hclean [] (fun v hv => Or.inl (hS v hv)) (by simpa using hclear), rest,
        by simp, List.Sublist.refl _, fun l hl => Or.inl hl⟩
  | basic =>
      simp only [minimise, bind_eq_ok, pure_eq_ok, Prod.mk.injEq] at h
      obtain ⟨kept, hkept, marks₁, hclear, rfl, rfl⟩ := h
      have hfilter : kept = rest.filter fun l =>
          !decide (directlyRedundant store t marks l = .ok true) := by
        refine filterM_ok (fun a _ r hr => ?_) hkept
        simp only [bind_eq_ok, pure_eq_ok] at hr
        obtain ⟨b, hb, rfl⟩ := hr
        cases b <;> simp [hb]
      refine ⟨hclean [] (fun v hv => Or.inl (hS v hv)) (by simpa using hclear), kept,
        by simp, ?_, fun l hl => ?_⟩
      · rw [hfilter]
        exact List.filter_sublist
      · obtain ⟨r, hr⟩ := filterM_tested hkept l hl
        simp only [bind_eq_ok, pure_eq_ok] at hr
        obtain ⟨b, hb, rfl⟩ := hr
        cases b with
        | true => exact Or.inr (explained_of_directlyRedundant hS hb)
        | false =>
            rw [hfilter]
            exact Or.inl (List.mem_filter.2 ⟨hl, by simp [hb]⟩)
  | deep =>
      simp only [minimise, bind_eq_ok, pure_eq_ok, Prod.mk.injEq] at h
      obtain ⟨⟨ls₁, p⟩, hdrop, marks₁, hclear, rfl, rfl⟩ := h
      have hstart : Probe.Sensible store t (fun v => v ∈ rest.map Lit.var) ⟨marks, []⟩ := by
        refine ⟨fun v hv => hS v (by rw [hv]; decide), fun v hv => ?_, fun v hv => Or.inl (hS v hv)⟩
        rcases hm v with hc | ⟨hc, -⟩
        · rw [hc] at hv
          cases hv
        · rw [hc] at hv
          cases hv
      obtain ⟨hp, ks, hls, hsub, hmiss⟩ := minimised_of_dropRedundant hstart hdrop
      exact ⟨hclean _ hp.touched (by simpa using hclear), ks, by simpa using hls, hsub, hmiss⟩

/-! ## The order of the literals -/

/-- The place that is chosen for the second literal is one after the first, and no literal after the
first has a higher level. -/
theorem highestLevel_eq_ok {lits : Array Lit} {i level : Nat}
    (h : highestLevel t lits = .ok (i, level)) :
    1 ≤ i ∧ (∃ l, lits.toList[i]? = some l ∧ t.levelOf l.var = level) ∧
      ∀ (j : Nat) (m : Lit), 1 ≤ j → lits.toList[j]? = some m → t.levelOf m.var ≤ level := by
  simp only [highestLevel, bind_eq_ok, pure_eq_ok, fetch_eq_ok, Trail.cell_eq_ok] at h
  obtain ⟨l₁, hl₁, start, ⟨cell, ⟨-, rfl⟩, rfl⟩, h⟩ := h
  -- the best position is the best of those before the ones still to come
  let P : List (Lit × Nat) → Nat × Nat → Prop := fun rest best =>
    ∃ k, rest = lits.toList.zipIdx.drop k ∧ 1 ≤ k ∧ 1 ≤ best.1 ∧
      (∃ l, lits.toList[best.1]? = some l ∧ t.levelOf l.var = best.2) ∧
      ∀ (j : Nat) (m : Lit), 1 ≤ j → j < k → lits.toList[j]? = some m → t.levelOf m.var ≤ best.2
  have hend : P [] (i, level) := by
    refine foldlM_ok P ?_ ?_ h
    · rintro ⟨l, j⟩ rest best best' ⟨k, hrest, hk1, hbest, hlit, hall⟩ hstep
      have hk : lits.toList.zipIdx[k]? = some (l, j) := by
        rw [← List.head?_drop, ← hrest, List.head?_cons]
      rw [List.getElem?_zipIdx, Option.map_eq_some_iff] at hk
      obtain ⟨l', hl', heq⟩ := hk
      obtain ⟨rfl, rfl⟩ := Prod.mk.inj heq
      have hrest' : rest = lits.toList.zipIdx.drop (k + 1) := by
        rw [← List.drop_drop, ← hrest, List.drop_one, List.tail_cons]
      simp only [bind_eq_ok, pure_eq_ok, Trail.cell_eq_ok] at hstep
      obtain ⟨n, ⟨cell, ⟨-, rfl⟩, rfl⟩, rfl⟩ := hstep
      rw [Nat.zero_add]
      have hcur : ∀ (j : Nat) (m : Lit), 1 ≤ j → j < k + 1 → lits.toList[j]? = some m →
          t.levelOf m.var ≤ best.2 ∨ m = l' := by
        intro j m hj hjk hm
        by_cases hjk' : j < k
        · exact Or.inl (hall j m hj hjk' hm)
        · obtain rfl : j = k := by omega
          exact Or.inr (Option.some.inj (hm.symm.trans hl'))
      refine ⟨k + 1, hrest', by omega, ?_⟩
      have hlevel : (t.cellOf l'.var).level = t.levelOf l'.var := rfl
      split
      next hgt =>
          refine ⟨hk1, ⟨l', hl', rfl⟩, fun j m hj hjk hm => ?_⟩
          rcases hcur j m hj hjk hm with hle | rfl
          · exact Nat.le_trans hle (Nat.le_of_lt hgt)
          · exact Nat.le_refl _
      next hle =>
          refine ⟨hbest, hlit, fun j m hj hjk hm => ?_⟩
          rcases hcur j m hj hjk hm with hle' | rfl
          · exact hle'
          · exact Nat.le_of_not_lt hle
    · refine ⟨2, rfl, by decide, Nat.le_refl 1, ⟨l₁, by rwa [Array.getElem?_toList], rfl⟩, ?_⟩
      intro j m hj hj2 hm
      obtain rfl : j = 1 := by omega
      rw [Array.getElem?_toList, hl₁] at hm
      rw [← Option.some.inj hm]
      exact Nat.le_refl _
  obtain ⟨k, hnil, -, hi, hlit, hall⟩ := hend
  refine ⟨hi, hlit, fun j m hj hm => hall j m hj ?_ hm⟩
  have hlen := List.drop_eq_nil_iff.1 hnil.symm
  have := (List.getElem?_eq_some_iff.1 hm).1
  rw [List.length_zipIdx] at hlen
  omega

/-- Exchanging the second literal with a later one. -/
theorem swapped_second {first : Lit} {kept : List Lit} {ls : Array Lit} {i : Nat}
    (hls : ls.toList = first :: kept) (h1 : 1 < ls.size) (hi : 1 ≤ i) (hilt : i < ls.size) :
    (∃ ks, (ls.swapIfInBounds 1 i).toList = first :: ks ∧ ks.Perm kept) ∧
      (ls.swapIfInBounds 1 i).toList[1]? = ls.toList[i]? := by
  -- the exchange is that of `Constraint.swap`
  have hswap : (⟨.clause, ls⟩ : Constraint).swap 1 i = .ok ⟨.clause, ls.swapIfInBounds 1 i⟩ := by
    rw [Constraint.swap, bind_eq_ok]
    exact ⟨(), require_eq_ok.2 (decide_eq_true ⟨h1, hilt⟩), rfl⟩
  have hperm : (ls.swapIfInBounds 1 i).toList.Perm ls.toList := (Constraint.same_swap hswap).perm
  have hget := (Constraint.swap_eq_ok hswap).2.2.2
  simp only at hget
  have hhead : (ls.swapIfInBounds 1 i).toList.head? = some first := by
    rw [List.head?_eq_getElem?, hget, if_neg (by omega), if_neg (by omega), hls]
    rfl
  obtain ⟨ks, hks⟩ := List.head?_eq_some_iff.1 hhead
  refine ⟨⟨ks, hks, ?_⟩, ?_⟩
  · rw [hks, hls] at hperm
    exact hperm.cons_inv
  · rw [hget]
    by_cases h1i : 1 = i
    · rw [if_pos h1i, h1i]
    · rw [if_neg h1i, if_pos rfl]

/-- A clause with its literal of the highest level brought to the second place. -/
theorem lesson_right {R : World → Prop} {first : Lit} {kept : List Lit} {ls : Array Lit}
    {lesson : Lesson} (hlevel : 0 < t.level) (hls : ls.toList = first :: kept)
    (hfirst : first.neg ∈ t) (hcur : t.levelOf first.var = t.level)
    (hkept : ∀ l ∈ kept, l.neg ∈ t ∧ 0 < t.levelOf l.var ∧ t.levelOf l.var < t.level)
    (hnd : (kept.map Lit.var).Nodup) (hholds : ∀ w, R w → w.clauseHolds ls.toList = true)
    (h : Analysis.lesson t ls = .ok lesson) : lesson.Right t R := by
  have hsize : ls.size = kept.length + 1 := by rw [← Array.length_toList, hls, List.length_cons]
  simp only [Analysis.lesson] at h
  split at h
  next hone =>
      simp only [bind_eq_ok, pure_eq_ok, fetch_eq_ok] at h
      obtain ⟨l, hl, rfl⟩ := h
      have hnil : kept = [] := List.eq_nil_of_length_eq_zero (by omega)
      rw [← Array.getElem?_toList, hls] at hl
      obtain rfl : first = l := by simpa using hl
      refine ⟨hlevel, hfirst, hcur, fun w hw => ?_⟩
      have := hholds w hw
      rw [hls, hnil, World.clauseHolds_iff] at this
      simpa using this
  next hmore =>
      simp only [bind_eq_ok, pure_eq_ok] at h
      obtain ⟨⟨i, level⟩, hhigh, rfl⟩ := h
      obtain ⟨hi, ⟨l, hl, hlev⟩, hmax⟩ := highestLevel_eq_ok hhigh
      have hilt : i < ls.size := by simpa using (List.getElem?_eq_some_iff.1 hl).1
      -- the swap leaves the first literal and permutes the others
      obtain ⟨⟨ks, hks, hperm⟩, hsecond⟩ := swapped_second hls (by omega) hi hilt
      have hkept' : ∀ m ∈ ks, m.neg ∈ t ∧ 0 < t.levelOf m.var ∧ t.levelOf m.var < t.level :=
        fun m hm => hkept m (hperm.mem_iff.1 hm)
      have hlt : level < t.level := by
        have hmem : l ∈ kept := by
          rw [hls] at hl
          obtain ⟨j, rfl⟩ : ∃ j, i = j + 1 := ⟨i - 1, by omega⟩
          exact List.mem_of_getElem? (by simpa using hl)
        rw [← hlev]
        exact (hkept l hmem).2.2
      refine ⟨⟨hlt, ?_, ?_, ⟨first, by rw [hks]; rfl, hfirst, hcur⟩, fun m hm => ?_,
        ⟨l, hsecond.trans hl, hlev⟩⟩, fun w hw => ?_⟩
      · have := hperm.length_eq
        rw [hks, List.length_cons]
        omega
      · rw [hks, List.map_cons, List.nodup_cons]
        refine ⟨fun hmem => ?_, ((hperm.map Lit.var).nodup_iff).2 hnd⟩
        obtain ⟨m, hm, hmv⟩ := List.mem_map.1 hmem
        have := (hkept' m hm).2.2
        rw [hmv] at this
        omega
      · rw [hks, List.tail_cons] at hm
        obtain ⟨hneg, hpos, -⟩ := hkept' m hm
        obtain ⟨j, hj⟩ := List.mem_iff_getElem?.1 (hperm.mem_iff.1 hm)
        exact ⟨hneg, hpos, hmax (j + 1) m (by omega) (by rw [hls]; simpa using hj)⟩
      · have hmem : ∀ m, m ∈ first :: ks ↔ m ∈ ls.toList := fun m => by
          rw [hls, List.mem_cons, List.mem_cons, hperm.mem_iff]
        rw [hks, World.clauseHolds_congr hmem]
        exact hholds w hw

/-! ## The analysis -/

/-- What is left of a complete derivation holds, its redundant literals left out. -/
theorem clauseHolds_of_minimised {n : Network} {R : World → Prop} (hs : n.Justified)
    (hr : n.Sound R) {d : Derivation} {last : Lit} {kept : List Lit}
    (hd : Derivation.Deriving n.trail R 0 [last.neg] d)
    (hm : Minimised n.store n.trail d.lits.toList kept) {w : World} (hw : R w) :
    w.clauseHolds (last.neg :: kept) = true := by
  rw [World.clauseHolds_iff]
  by_contra hno
  push Not at hno
  rcases hd.holds w hw with ⟨l, hl, hlw⟩ | ⟨m, hm, -⟩ | ⟨a, ha, haw⟩
  · -- the literal that is true belongs to the clause, so it is kept or redundant
    obtain ⟨hneg, -, -⟩ := hd.lits l hl
    have hfalse := Network.holds_of_redundant hs hr hw (S := fun v => v ∈ d.lits.toList.map Lit.var)
      (by
        intro m hmt hmS
        obtain ⟨b, hb, hbm⟩ := List.mem_map.1 hmS
        have hbneg : b.neg = m := hs.trail.eq_of_var_eq (hd.lits b hb).1 hmt hbm
        rcases hm.missing b hb with hbk | hex
        · left
          rw [← hbneg, Lit.holds_neg]
          simpa using hno b (List.mem_cons_of_mem _ hbk)
        · exact Or.inr (hbm ▸ hex))
      l.neg hneg (.member (List.mem_map.2 ⟨l, hl, rfl⟩))
    rw [Lit.holds_neg, hlw] at hfalse
    cases hfalse
  · cases hm
  · obtain rfl := List.mem_singleton.1 ha
    exact hno _ (by simp) haw

/-- The derivation starts from the failed constraint, which has a literal of the current level. -/
theorem deriving_of_conflict {n : Network} {R : World → Prop} {failed : Handle} {marks : Marks}
    {d : Derivation} (hs : n.Justified) (hr : n.Sound R) (hlevel : 0 < n.trail.level)
    (hconf : n.Conflict failed) (hclean : marks.Clean)
    (htake : (⟨marks, #[], 0, #[], #[]⟩ : Derivation).takeConstraint n.store n.trail failed false
      = .ok d) :
    Derivation.Deriving n.trail R n.trail.lits.size [] d ∧ 0 < d.pending := by
  obtain ⟨c, hc, hfalse, l, hl, hlt, hlev⟩ := hconf
  obtain ⟨hd, -, c', as, hc', has, htaken⟩ := Derivation.deriving_of_takeConstraint
    (i := n.trail.lits.size) hs.trail hr.ground (fun c' as hc' has => by
      obtain rfl := Option.some.inj (hc.symm.trans hc')
      obtain ⟨hneg, himp⟩ :=
        Constraint.antecedents_of_falsified hs.trail (hs.formed failed c hc) hfalse has
      refine ⟨Derivation.deriving_start hclean rfl rfl fun w hw =>
        himp w (hr.stored w hw failed c hc), fun b hb => ?_⟩
      rw [List.take_of_length_le (by simp)]
      exact hneg b hb) htake
  obtain rfl := Option.some.inj (hc.symm.trans hc')
  -- the literal of the current level is among the antecedents, so one literal is pending
  obtain ⟨b, hb, hbl⟩ : ∃ b ∈ as, b.var = l.var := by
    cases ha : c.isAtMost with
    | false => exact ⟨l, by rwa [Constraint.antecedents_clause ha has], rfl⟩
    | true =>
        obtain ⟨k, hk⟩ := Constraint.isAtMost_eq_true.1 ha
        refine ⟨l.neg, ?_, rfl⟩
        rw [Constraint.antecedents_atMost hk has]
        refine List.mem_map_of_mem (List.mem_filter.2 ⟨hl, ?_⟩)
        simpa using (hs.trail.truth_yes l).2 (hlt ha)
  have hblev : n.trail.levelOf b.var = n.trail.level := hbl ▸ hlev
  exact ⟨hd, hd.pending_pos ((htaken b hb).resolve_left (by omega)) hblev⟩

/-- The lesson of a conflict is right, and the marks are clear again. -/
theorem lesson_of_analyze {n : Network} {R : World → Prop} {a a' : Analysis} {failed : Handle}
    {x : Explanation} (hs : n.Justified) (hr : n.Sound R) (hconf : n.Conflict failed)
    (hclean : a.marks.Clean) (h : a.analyze n.store n.trail failed = .ok (x, a')) :
    x.lesson.Right n.trail R ∧ a'.marks.Clean := by
  simp only [analyze] at h
  split at h
  next hgr =>
      simp only [pure_eq_ok, Prod.mk.injEq] at h
      obtain ⟨rfl, rfl⟩ := h
      exact ⟨show n.trail.level = 0 by simpa [Trail.isGround] using hgr, hclean⟩
  next hgr =>
      have hlevel : 0 < n.trail.level := by
        simp only [Trail.isGround, beq_iff_eq] at hgr
        omega
      simp only [bind_eq_ok, pure_eq_ok] at h
      obtain ⟨d₀, htake, ⟨last, d⟩, hres, ⟨ls, marks⟩, hmin, lesson, hlesson, heq⟩ := h
      obtain ⟨rfl, rfl⟩ := Prod.mk.inj heq
      -- the failed constraint, the walk down the trail, and what minimising leaves
      obtain ⟨hd₀, hpos⟩ := deriving_of_conflict hs hr hlevel hconf hclean htake
      obtain ⟨hlast, hlastlev, hd⟩ := Derivation.derived_of_resolve hs hr hd₀ hpos hres
      obtain ⟨hclean', kept, hls, hmini⟩ := minimised_of_minimise hd.marks_lits hmin
      refine ⟨lesson_right hlevel hls ?_ hlastlev ?_ ?_ ?_ hlesson, hclean'⟩
      · rwa [Lit.neg_neg]
      · exact fun m hm => hd.lits m (hmini.sublist.subset hm)
      · exact hd.distinct.sublist (hmini.sublist.map _)
      · intro w hw
        rw [hls]
        exact clauseHolds_of_minimised hs hr hd hmini hw

end Analysis

end CardSat
