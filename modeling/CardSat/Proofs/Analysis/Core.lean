import CardSat.Proofs.Analysis.Derivation

set_option autoImplicit false

/-! # The assumptions to blame

`failedAssumptions` goes down the trail from a true literal. It replaces each marked literal by the
antecedents of its value, so that what is marked, together with the decisions found, keeps implying
the literal (`Tracing`). At the ground level only the decisions are left
(`blamed_of_failedAssumptions`).

The steps are those of a derivation, but nothing is counted: the walk does not stop at an
implication point, it goes on down to the ground level. So the invariant is simpler than
`Deriving`. It speaks of the marked literals below the current position and of the decisions that
were passed, and it needs no clause.

What is found are the complements of decisions, after the literal itself. In a search with
assumptions the decisions are assumptions as long as no other decision was made, which is shown
where the core is used.
-/

namespace CardSat

namespace Analysis

variable {n : Network} {R : World → Prop} {p : Lit}

/-- The decisions from which a literal follows. -/
structure Blamed (t : Trail) (R : World → Prop) (p : Lit) (decisions : List Lit) : Prop where
  decided : ∀ d ∈ decisions, d ∈ t ∧ 0 < t.levelOf d.var ∧ t.reasonOf d.var = none
  implies : ∀ w, R w → (∀ d ∈ decisions, d.holds w = true) → p.holds w = true

/-- The invariant of the trace when the literals from position `i` on have been dealt with. -/
structure Tracing (t : Trail) (R : World → Prop) (p : Lit) (i : Nat) (s : Array Lit × Marks)
    (decisions : List Lit) : Prop where
  found : s.1.toList = p :: decisions.map Lit.neg
  decided : ∀ d ∈ decisions, d ∈ t ∧ 0 < t.levelOf d.var ∧ t.reasonOf d.var = none
  marked : ∀ v, s.2.markOf v ≠ .clear → v = p.var ∨
    ∃ m ∈ t.lits.toList.take i, m.var = v ∧ 0 < t.levelOf v
  implies : ∀ w, R w → (∀ d ∈ decisions, d.holds w = true) →
    (∀ m ∈ t.lits.toList.take i, s.2.markOf m.var ≠ .clear → m.holds w = true) →
    p.holds w = true

/-- Marking the antecedents of a literal marks those above the ground level, whatever was marked
before. -/
theorem markOf_foldlM {t : Trail} {as : List Lit} {marks marks' : Marks}
    (h : as.foldlM (fun (m : Marks) a => do
      if (← t.cell a.var).level = 0 then return m else m.set a.var .inClause) marks = .ok marks')
    (v : Var) : marks'.markOf v ≠ .clear ↔
      marks.markOf v ≠ .clear ∨ ∃ a ∈ as, a.var = v ∧ 0 < t.levelOf v := by
  induction as generalizing marks with
  | nil =>
      rw [List.foldlM_nil, pure_eq_ok] at h
      simp [h]
  | cons a as ih =>
      simp only [List.foldlM_cons, bind_eq_ok, Trail.cell_eq_ok] at h
      obtain ⟨marks₁, ⟨cell, ⟨-, rfl⟩, h₁⟩, h⟩ := h
      rw [ih h]
      -- one antecedent: it is marked unless it belongs to the ground level
      have hfirst : marks₁.markOf v ≠ .clear ↔
          marks.markOf v ≠ .clear ∨ a.var = v ∧ 0 < t.levelOf v := by
        split at h₁
        next hzero =>
            obtain rfl := pure_eq_ok.1 h₁
            have hzero' : t.levelOf a.var = 0 := hzero
            constructor
            · exact Or.inl
            · rintro (hm | ⟨rfl, hpos⟩)
              · exact hm
              · omega
        next hpos =>
            rw [Marks.set_eq_ok h₁]
            have hpos' : 0 < t.levelOf a.var := Nat.pos_of_ne_zero hpos
            split
            next he =>
                subst he
                exact ⟨fun _ => Or.inr ⟨rfl, hpos'⟩, fun _ => by decide⟩
            next hne =>
                constructor
                · exact Or.inl
                · rintro (hm | ⟨rfl, -⟩)
                  · exact hm
                  · exact absurd rfl hne
      rw [hfirst, or_assoc]
      simp only [List.mem_cons, exists_eq_or_imp]

namespace Tracing

variable {t : Trail} {i : Nat} {l : Lit} {s s' : Array Lit × Marks} {ds : List Lit}

/-- A literal without a mark is passed. -/
theorem skip (h : Tracing t R p (i + 1) s ds) (hi : t.lits.toList[i]? = some l)
    (hclear : s.2.markOf l.var = .clear) : Tracing t R p i s ds where
  found := h.found
  decided := h.decided
  marked v hv := by
    refine (h.marked v hv).imp_right (Trail.exists_mem_take hi ?_)
    rintro rfl
    exact hv hclear
  implies w hw hds hall := by
    refine h.implies w hw hds fun m hm hmm => ?_
    rcases (Trail.mem_take_succ hi).1 hm with hm | rfl
    · exact hall m hm hmm
    · exact absurd hclear hmm

/-- A decision is part of the answer. -/
theorem decision {marks : Marks} (hv : t.Valid) (h : Tracing t R p (i + 1) s ds)
    (hi : t.lits.toList[i]? = some l) (hlev : 0 < t.levelOf l.var)
    (hreason : t.reasonOf l.var = none) (hset : s.2.set l.var .clear = .ok marks) :
    Tracing t R p i (s.1.push l.neg, marks) (ds ++ [l]) where
  found := by simp [h.found]
  decided d hd := by
    rcases List.mem_append.1 hd with hd | hd
    · exact h.decided d hd
    · obtain rfl := List.mem_singleton.1 hd
      exact ⟨List.mem_of_getElem? hi, hlev, hreason⟩
  marked v hvm := by
    obtain ⟨hvl, hvm'⟩ := Marks.ne_clear_of_set hset hvm
    exact (h.marked v hvm').imp_right (Trail.exists_mem_take hi hvl)
  implies w hw hds hall := by
    refine h.implies w hw (fun d hd => hds d (List.mem_append_left _ hd)) fun m hm hmm => ?_
    rcases (Trail.mem_take_succ hi).1 hm with hm | rfl
    · exact hall m hm (by
        rw [Marks.set_eq_ok hset, if_neg (hv.var_ne_of_mem_take hi hm)]
        exact hmm)
    · exact hds m (by simp)

/-- A forced literal passes its mark on to its antecedents `as`. -/
theorem pass {as : List Lit} {marks marks' : Marks} (hv : t.Valid)
    (hground : ∀ w, R w → ∀ l ∈ t, t.levelOf l.var = 0 → l.holds w = true)
    (h : Tracing t R p (i + 1) s ds) (hi : t.lits.toList[i]? = some l)
    (hneg : ∀ a ∈ as, a.neg ∈ t.lits.toList.take i)
    (himp : ∀ w, R w → l.holds w = true ∨ ∃ a ∈ as, a.holds w = true)
    (hmarks : ∀ v, marks.markOf v ≠ .clear ↔
      s.2.markOf v ≠ .clear ∨ ∃ a ∈ as, a.var = v ∧ 0 < t.levelOf v)
    (hset : marks.set l.var .clear = .ok marks') : Tracing t R p i (s.1, marks') ds where
  found := h.found
  decided := h.decided
  marked v hvm := by
    obtain ⟨hvl, hvm'⟩ := Marks.ne_clear_of_set hset hvm
    rcases (hmarks v).1 hvm' with hvs | ⟨a, ha, hav, hpos⟩
    · exact (h.marked v hvs).imp_right (Trail.exists_mem_take hi hvl)
    · exact Or.inr ⟨a.neg, hneg a ha, hav, hpos⟩
  implies w hw hds hall := by
    have hkept : ∀ m ∈ t.lits.toList.take i, marks.markOf m.var ≠ .clear → m.holds w = true :=
      fun m hm hmm => hall m hm (by
        rw [Marks.set_eq_ok hset, if_neg (hv.var_ne_of_mem_take hi hm)]
        exact hmm)
    refine h.implies w hw hds fun m hm hmm => ?_
    rcases (Trail.mem_take_succ hi).1 hm with hm | rfl
    · exact hkept m hm ((hmarks m.var).2 (Or.inl hmm))
    · refine (himp w hw).resolve_right ?_
      rintro ⟨a, ha, haw⟩
      -- the complement of an antecedent holds, by its mark or at the ground level
      have hanw : a.neg.holds w = true := by
        by_cases hzero : t.levelOf a.var = 0
        · exact hground w hw a.neg (List.mem_of_mem_take (hneg a ha)) hzero
        · exact hkept a.neg (hneg a ha)
            ((hmarks a.var).2 (Or.inr ⟨a, ha, rfl, Nat.pos_of_ne_zero hzero⟩))
      rw [Lit.holds_neg, haw] at hanw
      cases hanw

end Tracing

/-- One step of the trace. -/
theorem tracing_of_traceLit (hs : n.Justified) (hr : n.Sound R) {i : Nat} {l : Lit}
    {s s' : Array Lit × Marks} {ds : List Lit} (h : Tracing n.trail R p (i + 1) s ds)
    (hi : n.trail.lits.toList[i]? = some l) (hlev : 0 < n.trail.levelOf l.var)
    (ht : traceLit n.store n.trail s l = .ok s') : ∃ ds', Tracing n.trail R p i s' ds' := by
  simp only [traceLit, bind_eq_ok] at ht
  obtain ⟨x, hx, ht⟩ := ht
  split at ht
  next hclear =>
      obtain rfl := pure_eq_ok.1 ht
      exact ⟨ds, h.skip hi ((Marks.of_eq_ok hx).trans hclear)⟩
  next hmarked =>
      simp only [bind_eq_ok, Trail.cell_eq_ok] at ht
      obtain ⟨cell, ⟨-, rfl⟩, ht⟩ := ht
      split at ht
      next hreason =>
          simp only [bind_eq_ok, pure_eq_ok] at ht
          obtain ⟨marks, hset, rfl⟩ := ht
          -- a decision is to blame itself
          exact ⟨ds ++ [l], h.decision hs.trail hi hlev hreason hset⟩
      next a hreason =>
          simp only [bind_eq_ok, pure_eq_ok, Store.fetch_eq_ok] at ht
          obtain ⟨c, hc, as, has, marks, hfold, marks', hset, rfl⟩ := ht
          -- the blame passes to the reason
          obtain ⟨hneg, himp⟩ := Network.implied_of_reason hs hr hi hreason hc has
          exact ⟨ds, h.pass hs.trail hr.ground hi hneg himp (markOf_foldlM hfold) hset⟩

/-- Going down from position `i + 1` to a bound. -/
theorem eq_reverse_cons {α : Type} {xs rest : List α} {x : α} {b i : Nat} (hi : i < xs.length)
    (h : x :: rest = ((xs.take (i + 1)).drop b).reverse) :
    b ≤ i ∧ xs[i]? = some x ∧ rest = ((xs.take i).drop b).reverse := by
  have hget := List.getElem?_eq_getElem hi
  rw [List.take_add_one, hget, Option.toList_some] at h
  by_cases hb : b ≤ i
  · rw [List.drop_append_of_le_length (by rw [List.length_take]; omega), List.reverse_append,
      List.reverse_singleton, List.singleton_append, List.cons.injEq] at h
    obtain ⟨rfl, hrest⟩ := h
    exact ⟨hb, hget, hrest⟩
  · rw [List.drop_eq_nil_of_le (by simp; omega)] at h
    cases h

/-- The whole trace, down to the ground level. -/
theorem traced_of_foldlM {s s' : Array Lit × Marks} {ds : List Lit} (hs : n.Justified)
    (hr : n.Sound R) (h : Tracing n.trail R p n.trail.lits.size s ds)
    (hfold : (n.trail.above 0).reverse.foldlM (traceLit n.store n.trail) s = .ok s') :
    ∃ i ds', (∀ m ∈ n.trail.lits.toList.take i, n.trail.levelOf m.var = 0) ∧
      Tracing n.trail R p i s' ds' := by
  have hv := hs.trail
  -- the literals still to come are those from the end of the ground level up to position `i`
  let P : List Lit → Array Lit × Marks → Prop := fun rest s =>
    ∃ i ds, rest = ((n.trail.lits.toList.take i).drop (n.trail.levelEnd 0)).reverse ∧
      i ≤ n.trail.lits.size ∧ Tracing n.trail R p i s ds
  have hstep : ∀ l rest s s', P (l :: rest) s → traceLit n.store n.trail s l = .ok s' →
      P rest s' := by
    rintro l rest s s' ⟨i, ds, hrest, hi, htr⟩ hstep
    cases i with
    | zero => simp at hrest
    | succ i =>
        obtain ⟨hb, hget, hrest'⟩ := eq_reverse_cons (by rw [Array.length_toList]; omega) hrest
        have hlev : 0 < n.trail.levelOf l.var := by
          by_contra hzero
          have := (hv.levelOf_le_iff (b := 0) hget).1 (by omega)
          omega
        obtain ⟨ds', htr'⟩ := tracing_of_traceLit hs hr htr hget hlev hstep
        exact ⟨i, ds', hrest', by omega, htr'⟩
  have hstart : P (n.trail.above 0).reverse s := by
    refine ⟨n.trail.lits.size, ds, ?_, Nat.le_refl _, h⟩
    rw [List.take_of_length_le (by simp), Trail.above]
  obtain ⟨i, ds', hnil, -, htr⟩ := foldlM_ok P hstep hstart hfold
  refine ⟨i, ds', fun m hm => ?_, htr⟩
  have hle := List.drop_eq_nil_iff.1 (List.reverse_eq_nil_iff.1 hnil.symm)
  obtain ⟨j, hj⟩ := List.mem_iff_getElem?.1 hm
  have hjlt := (List.getElem?_eq_some_iff.1 hj).1
  rw [List.getElem?_take] at hj
  split at hj
  next => exact Nat.le_zero.1 ((hv.levelOf_le_iff hj).2 (by omega))
  next => cases hj

/-- The decisions that `failedAssumptions` finds imply the literal it starts from. -/
theorem blamed_of_failedAssumptions {a a' : Analysis} {found : List Lit} (hs : n.Justified)
    (hr : n.Sound R) (hclean : a.marks.Clean) (hp : p ∈ n.trail)
    (h : a.failedAssumptions n.store n.trail p = .ok (found, a')) :
    a'.marks.Clean ∧ ∃ ds, found = p :: ds.map Lit.neg ∧ Blamed n.trail R p ds := by
  have hv := hs.trail
  simp only [failedAssumptions] at h
  split at h
  next hgr =>
      simp only [pure_eq_ok, Prod.mk.injEq] at h
      obtain ⟨rfl, rfl⟩ := h
      refine ⟨hclean, [], rfl, by simp, fun w hw _ => hr.ground w hw p hp ?_⟩
      have := hv.levelOf_le hp
      simp only [Trail.isGround, beq_iff_eq] at hgr
      omega
  next =>
      simp only [bind_eq_ok, pure_eq_ok, Prod.mk.injEq] at h
      obtain ⟨marks, hset, ⟨found', marks₁⟩, hfold, marks₂, hset₂, rfl, rfl⟩ := h
      have hmarks := Marks.set_eq_ok hset
      -- at the start the literal itself is the only one that is marked
      have hstart : Tracing n.trail R p n.trail.lits.size (#[p], marks) [] := by
        refine ⟨rfl, by simp, fun v hvm => ?_, fun w _ _ hall => hall p ?_ ?_⟩
        · rw [hmarks] at hvm
          split at hvm
          next he => exact Or.inl he
          next => exact absurd (hclean v) hvm
        · rw [List.take_of_length_le (by simp)]
          exact hp
        · rw [hmarks, if_pos rfl]
          decide
      obtain ⟨i, ds, hground, htr⟩ := traced_of_foldlM hs hr hstart hfold
      refine ⟨fun v => ?_, ds, htr.found, htr.decided, fun w hw hds => ?_⟩
      · simp only [Marks.set_eq_ok hset₂]
        split
        next => rfl
        next hvp =>
            by_contra hne
            rcases htr.marked v hne with he | ⟨m, hm, rfl, hpos⟩
            · exact hvp he
            · have := hground m hm
              omega
      · exact htr.implies w hw hds fun m hm _ =>
          hr.ground w hw m (List.mem_of_mem_take hm) (hground m hm)

end Analysis

end CardSat
