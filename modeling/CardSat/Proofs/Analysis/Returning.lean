import CardSat.Proofs.Analysis
import CardSat.Proofs.Analysis.Covering
import CardSat.Proofs.Propagation.Returning
import CardSat.Proofs.Trail.Decisions

set_option autoImplicit false

/-! # Analysis returns

The analysis of a conflict goes down the trail until one marked literal of the current level is
left. It never gets below the start of the trail, and the only literal it can fail at is a decision
in the middle of the level (`outcome_of_analyze`). Where every level begins with its decision
(`Trail.Led`) there is none, and the analysis is not refused (`returns_of_analyze`). The search for
redundant literals goes down the trail as well, and so its depth is bounded by the position of the
literal.

Three things could go wrong. A mark or a cell of an unknown variable could be asked for: the marks
are complete and all literals met are known (`Derivation.Gathered`, `Probe.Known`). A reason could
be missing from the store, or not explain its literal: this is excluded for a network that is
justified. And the walk could come to its end with literals pending, or to a literal without a
reason: the invariant of the derivation says that the pending literals are ahead, and that a literal
without a reason is misplaced.

The soundness of the worlds plays no part, so the invariant is used with the empty set of worlds.
-/

namespace CardSat

/-! ## Antecedents and marks -/

/-- The antecedents of a well-formed constraint can be listed: all its variables are known. -/
theorem Constraint.succeeds_antecedents {c : Constraint} {t : Trail} (skip : Bool)
    (hc : c.WellFormed t.varCount) : Succeeds (c.antecedents t skip) := by
  rw [antecedents]
  split
  next =>
      exact succeeds_bind (succeeds_filterM fun l hl => Trail.succeeds_isTrue (hc.known l hl))
        fun _ _ => succeeds_pure _
  next =>
      refine succeeds_bind (succeeds_require _ ?_) fun _ _ => succeeds_pure _
      have := hc.two_le
      simp only [Bool.or_eq_true, decide_eq_true_eq]
      exact Or.inr (by omega)

/-- The reason of a literal is stored, and its antecedents came before the literal. -/
theorem Network.exists_antecedents {n : Network} (hs : n.Justified) {i : Nat} {m : Lit}
    {h : Handle} (hi : n.trail.lits.toList[i]? = some m) (hreason : n.trail.reasonOf m.var = some h) :
    ∃ c as, n.store.get? h = some c ∧ c.antecedents n.trail true = .ok as ∧
      ∀ a ∈ as, a.neg ∈ n.trail.lits.toList.take i := by
  obtain ⟨c, hc, he⟩ := hs.reasons i m h hi hreason
  obtain ⟨as, has⟩ := Constraint.succeeds_antecedents true (hs.formed h c hc)
  exact ⟨c, as, hc, has, (Constraint.antecedents_of_explains hs.trail (hs.formed h c hc)
    (fun l hl => List.mem_of_mem_take hl) (List.mem_of_getElem? hi) he has).1⟩

namespace Marks

variable {m : Marks} {n : Nat} {v : Var}

/-- A complete table has a mark for every known variable. -/
theorem succeeds_of (hc : m.Covers n) (hv : v.index < n) : Succeeds (m.of v) := by
  obtain ⟨x, hx⟩ := hc v.index hv
  exact ⟨x, SparseTable.fetch_eq_ok.2 hx⟩

/-- The mark of a known variable can be set. -/
theorem succeeds_set (hc : m.Covers n) (hv : v.index < n) (x : Mark) : Succeeds (m.set v x) :=
  ⟨_, SparseTable.replace_eq_ok.2 ⟨hc v.index hv, rfl⟩⟩

/-- The marks of known variables can be cleared. -/
theorem succeeds_clearAll (hc : m.Covers n) {lits : List Lit}
    (hl : ∀ l ∈ lits, l.var.index < n) : Succeeds (m.clearAll lits) := by
  obtain ⟨m', hm, -⟩ := succeeds_foldlM
    (f := fun (m : Marks) (l : Lit) => m.set l.var .clear)
    (fun rest (m : Marks) => m.Covers n ∧ ∀ l ∈ rest, l.var.index < n)
    (fun l rest m₁ ⟨hc₁, hl₁⟩ => by
      obtain ⟨m₂, hset⟩ := succeeds_set hc₁ (hl₁ l (by simp)) .clear
      exact ⟨m₂, hset, covers_of_set hc₁ hset, fun a ha => hl₁ a (List.mem_cons_of_mem _ ha)⟩)
    ⟨hc, hl⟩
  exact ⟨m', hm⟩

end Marks

/-! ## Deriving -/

namespace Derivation

variable {store : Store} {t : Trail} {d d' : Derivation} {n : Network}

/-- What a derivation has gathered is known. -/
structure Gathered (store : Store) (k : Nat) (d : Derivation) : Prop where
  marks : d.marks.Covers k
  vars : ∀ v ∈ d.vars.toList, v.index < k
  constraints : ∀ h ∈ d.constraints.toList, ∃ c, store.get? h = some c

/-- A known literal can be taken. -/
theorem returns_of_takeLit {l : Lit} (hd : d.Gathered store t.varCount)
    (hl : l.var.index < t.varCount) :
    ∃ d', d.takeLit t l = .ok d' ∧ d'.Gathered store t.varCount := by
  obtain ⟨x, hx⟩ := Marks.succeeds_of hd.marks hl
  obtain ⟨cell, hcell⟩ := Trail.succeeds_cell (t := t) hl
  obtain ⟨marks, hset⟩ := Marks.succeeds_set hd.marks hl .inClause
  have hmarks := Marks.covers_of_set hd.marks hset
  have hvars : ∀ v ∈ (d.vars.push l.var).toList, v.index < t.varCount := fun v hv => by
    rcases List.mem_append.1 (by simpa using hv : v ∈ d.vars.toList ++ [l.var]) with hv | hv
    · exact hd.vars v hv
    · exact List.mem_singleton.1 hv ▸ hl
  simp only [takeLit, hx, hcell, hset, ok_bind]
  split
  · exact ⟨d, rfl, hd⟩
  · split
    · exact ⟨d, rfl, hd⟩
    · split
      · exact ⟨_, rfl, hmarks, hvars, hd.constraints⟩
      · exact ⟨_, rfl, hmarks, hvars, hd.constraints⟩

/-- The antecedents of a stored constraint can be taken. -/
theorem returns_of_takeConstraint {h : Handle} {c : Constraint} {as : List Lit} {skip : Bool}
    (hd : d.Gathered store t.varCount) (hc : store.get? h = some c)
    (has : c.antecedents t skip = .ok as) (hknown : ∀ a ∈ as, a.var.index < t.varCount) :
    ∃ d', d.takeConstraint store t h skip = .ok d' ∧ d'.Gathered store t.varCount := by
  have hpush : Gathered store t.varCount { d with constraints := d.constraints.push h } :=
    ⟨hd.marks, hd.vars, fun a ha => by
      rcases List.mem_append.1 (by simpa using ha : a ∈ d.constraints.toList ++ [h]) with ha | ha
      · exact hd.constraints a ha
      · exact ⟨c, List.mem_singleton.1 ha ▸ hc⟩⟩
  obtain ⟨d', hfold, hd', -⟩ := succeeds_foldlM (f := takeLit t)
    (fun rest (d : Derivation) =>
      d.Gathered store t.varCount ∧ ∀ a ∈ rest, a.var.index < t.varCount)
    (fun a rest d₁ ⟨hd₁, hrest⟩ => by
      obtain ⟨d₂, htake, hd₂⟩ := returns_of_takeLit hd₁ (hrest a (by simp))
      exact ⟨d₂, htake, hd₂, fun b hb => hrest b (List.mem_cons_of_mem _ hb)⟩)
    ⟨hpush, hknown⟩
  refine ⟨d', ?_, hd'⟩
  simp only [takeConstraint, bind_eq_ok, Store.fetch_eq_ok]
  exact ⟨c, hc, as, has, hfold⟩

/-- The literal that is resolved next has a reason: a decision would have a marked literal of its
level below it. -/
theorem misplaced_of_pending {i : Nat} {m : Lit} {rest : List Lit} {R : World → Prop}
    (hv : t.Valid) (hd : Deriving t R i rest d) (hpos : 0 < d.pending) (hlevel : 0 < t.level)
    (hi : t.lits.toList[i]? = some m) (hm : t.levelOf m.var = t.level)
    (hreason : t.reasonOf m.var = none) : t.Misplaced m := by
  have hcount : 0 < (t.lits.toList.take i).countP (isOpen t d.marks) := by
    have := hd.pending
    omega
  -- another literal of the level is pending further down, so the level starts before `m`
  obtain ⟨a, ha, hopen⟩ := List.countP_pos_iff.1 hcount
  refine ⟨⟨List.mem_of_getElem? hi, by omega, hreason⟩, hm, i, hi, ?_⟩
  obtain ⟨k, hk⟩ : ∃ k, t.level = k + 1 := ⟨t.level - 1, by omega⟩
  obtain ⟨j, hj⟩ := List.mem_iff_getElem?.1 ha
  rw [List.getElem?_take] at hj
  split at hj
  next hji =>
      have hlater : ¬ t.levelOf a.var ≤ k := by
        have := (isOpen_eq_true.1 hopen).1
        omega
      rw [hv.levelOf_le_iff hj] at hlater
      rw [hk]
      exact Nat.lt_of_le_of_lt (Nat.not_lt.1 hlater) hji
  next => cases hj

/-- The walk down the trail ends above its start: at the last marked literal of the current level, or
else at a decision that is not the first literal of the level. -/
theorem outcome_of_resolve (hs : n.Justified) (hlevel : 0 < n.trail.level) :
    ∀ {i : Nat} {d : Derivation}, i ≤ n.trail.lits.size →
      Deriving n.trail (fun _ => False) i [] d → 0 < d.pending →
      d.Gathered n.store n.trail.varCount →
      (∃ l d', d.resolve n.store n.trail i = .ok (l, d') ∧
        d'.Gathered n.store n.trail.varCount) ∨
      ∃ l, n.trail.Misplaced l ∧
        d.resolve n.store n.trail i = .error (.impliedWithoutReason l) := by
  have hground : ∀ w, (fun _ : World => False) w →
      ∀ l ∈ n.trail, n.trail.levelOf l.var = 0 → l.holds w = true := fun _ => False.elim
  intro i
  -- on the positions left: something is pending, so a marked literal stands below
  induction i with
  | zero =>
      intro d _ hd hpos _
      have := hd.pending
      simp only [List.take_zero, List.countP_nil] at this
      omega
  | succ i ih =>
      intro d hsize hd hpos hg
      have hi : n.trail.lits.toList[i]? = some n.trail.lits[i] := by
        rw [Array.getElem?_toList, Array.getElem?_eq_getElem]
      have hknown := hs.trail.lt_varCount (List.mem_of_getElem? hi)
      obtain ⟨x, hx⟩ := Marks.succeeds_of hg.marks hknown
      have hmark := Marks.of_eq_ok hx
      simp only [resolve, Trail.litAt_eq_ok.2 hi, hx, ok_bind]
      split
      next hclear => exact ih (by omega) (deriving_of_clear hd hi (hmark.trans hclear)) hpos hg
      next hmarked =>
          obtain ⟨marks, hset⟩ := Marks.succeeds_set hg.marks hknown .clear
          obtain ⟨hlev, hd₁⟩ :=
            deriving_of_marked hs.trail hd hpos hi (by rwa [hmark]) hset
          have hg₁ : Gathered n.store n.trail.varCount
              { d with marks, pending := d.pending - 1 } :=
            ⟨Marks.covers_of_set hg.marks hset, hg.vars, hg.constraints⟩
          simp only [hset, ok_bind]
          split
          next => exact Or.inl ⟨_, _, rfl, hg₁⟩
          next hleft =>
              have hpos₁ : 0 < d.pending - 1 := Int.not_le.1 hleft
              rw [Trail.cell_eq_ok.2 ⟨hknown, rfl⟩, ok_bind]
              cases hreason : (n.trail.cellOf n.trail.lits[i].var).reason with
              | none =>
                  exact Or.inr ⟨_, misplaced_of_pending hs.trail hd₁ hpos₁ hlevel hi hlev hreason,
                    rfl⟩
              | some h =>
                  obtain ⟨c, as, hc, has, hneg⟩ := Network.exists_antecedents hs hi hreason
                  obtain ⟨d₂, htake, hg₂⟩ := returns_of_takeConstraint hg₁ hc has fun a ha =>
                    hs.trail.lt_varCount (l := a.neg) (List.mem_of_mem_take (hneg a ha))
                  obtain ⟨hd₂, hgrow, -⟩ := deriving_of_takeConstraint hs.trail hground
                    (fun c' as' hc' has' => by
                      obtain rfl := Option.some.inj (hc.symm.trans hc')
                      obtain rfl := Except.ok.inj (has.symm.trans has')
                      exact ⟨hd₁.replace fun _ => False.elim, hneg⟩) htake
                  have hle := hd₁.pending_le hd₂ hgrow
                  simp only [htake, ok_bind]
                  exact ih (by omega) hd₂ (Int.lt_of_lt_of_le hpos₁ hle) hg₂

end Derivation

/-! ## Leaving out redundant literals -/

section

variable {n : Network}

/-- The marks of a search are complete, and it has touched known variables only. -/
structure Probe.Known (k : Nat) (p : Probe) : Prop where
  marks : p.marks.Covers k
  touched : ∀ l ∈ p.touched, l.var.index < k

/-- An answer can be noted for a known variable. -/
theorem Probe.returns_of_note {p : Probe} {k : Nat} {l : Lit} (mark : Mark) (hp : p.Known k)
    (hl : l.var.index < k) : ∃ p', p.note l mark = .ok p' ∧ p'.Known k := by
  obtain ⟨x, hx⟩ := Marks.succeeds_of hp.marks hl
  obtain ⟨marks, hset⟩ := Marks.succeeds_set hp.marks hl mark
  simp only [note, hx, hset, ok_bind]
  split
  · refine ⟨_, rfl, Marks.covers_of_set hp.marks hset, fun m hm => ?_⟩
    rcases List.mem_cons.1 hm with rfl | hm
    · exact hl
    · exact hp.touched m hm
  · exact ⟨p, rfl, hp⟩

/-- A list of known antecedents can be gone through if the search returns for each of them. -/
theorem returns_of_allExplained {t : Trail} {descend : Lit → Probe → Checked (Bool × Probe)} :
    ∀ {lits : List Lit} {p : Probe}, p.Known t.varCount →
      (∀ l ∈ lits, l.var.index < t.varCount ∧
        ∀ p, p.Known t.varCount → ∃ b p', descend l p = .ok (b, p') ∧ p'.Known t.varCount) →
      ∃ b p', allExplained t descend lits p = .ok (b, p') ∧ p'.Known t.varCount := by
  intro lits
  induction lits with
  | nil => exact fun {p} hp _ => ⟨true, p, rfl, hp⟩
  | cons l lits ih =>
      intro p hp hlits
      obtain ⟨hl, hdescend⟩ := hlits l (by simp)
      have hrest := fun a ha => hlits a (List.mem_cons_of_mem l ha)
      obtain ⟨cell, hcell⟩ := Trail.succeeds_cell (t := t) hl
      obtain ⟨x, hx⟩ := Marks.succeeds_of hp.marks hl
      simp only [allExplained, hcell, hx, ok_bind]
      split
      · exact ih hp hrest
      · split
        · exact ⟨false, p, rfl, hp⟩
        · obtain ⟨b, p₁, hd, hp₁⟩ := hdescend p hp
          simp only [hd, ok_bind]
          cases b with
          | true => exact ih hp₁ hrest
          | false => exact ⟨false, p₁, rfl, hp₁⟩

/-- The search goes down the trail, so it ends before the depth is used up. -/
theorem returns_of_redundantWithin (hs : n.Justified) :
    ∀ (depth i : Nat) (l : Lit) (p : Probe), n.trail.lits.toList[i]? = some l.neg → i < depth →
      p.Known n.trail.varCount → ∃ b p',
        redundantWithin n.store n.trail depth l p = .ok (b, p') ∧ p'.Known n.trail.varCount := by
  intro depth
  induction depth with
  | zero => exact fun i l p _ hi => absurd hi (Nat.not_lt_zero i)
  | succ depth ih =>
      intro i l p hl hi hp
      have hknown : l.var.index < n.trail.varCount :=
        hs.trail.lt_varCount (l := l.neg) (List.mem_of_getElem? hl)
      rw [redundantWithin, Trail.cell_eq_ok.2 ⟨hknown, rfl⟩, ok_bind]
      split
      next => exact ⟨false, p, rfl, hp⟩
      next h hreason =>
          obtain ⟨c, as, hc, has, hneg⟩ := Network.exists_antecedents hs hl hreason
          -- the antecedents stand below the position `i`, and so the depth that is left is enough
          have hall : ∀ a ∈ as, a.var.index < n.trail.varCount ∧
              ∀ p, p.Known n.trail.varCount → ∃ b p',
                redundantWithin n.store n.trail depth a p = .ok (b, p') ∧
                  p'.Known n.trail.varCount := by
            intro a ha
            obtain ⟨j, hj⟩ := List.mem_iff_getElem?.1 (hneg a ha)
            rw [List.getElem?_take] at hj
            split at hj
            next hji =>
                exact ⟨hs.trail.lt_varCount (l := a.neg) (List.mem_of_getElem? hj),
                  fun p hp => ih j a p hj (by omega) hp⟩
            next => cases hj
          obtain ⟨b, p₁, hexplained, hp₁⟩ := returns_of_allExplained hp hall
          obtain ⟨p', hnote, hp'⟩ :=
            Probe.returns_of_note (if b then .removable else .failed) hp₁ hknown
          refine ⟨b, p', ?_, hp'⟩
          simp only [Store.fetch_eq_ok.2 hc, has, hexplained, hnote, ok_bind]
          rfl

/-- The depth that a search is given is the length of the trail, which is enough. -/
theorem returns_of_redundant (hs : n.Justified) {l : Lit} {p : Probe}
    (hl : l.neg ∈ n.trail) (hp : p.Known n.trail.varCount) :
    ∃ b p', redundant n.store n.trail l p = .ok (b, p') ∧ p'.Known n.trail.varCount := by
  obtain ⟨i, hi⟩ := List.mem_iff_getElem?.1 hl
  have hlt := (List.getElem?_eq_some_iff.1 hi).1
  refine returns_of_redundantWithin hs _ i l p hi ?_ hp
  simp only [Array.length_toList, Trail.size] at hlt ⊢
  omega

/-- The basic mode looks at one reason only. -/
theorem succeeds_directlyRedundant (hs : n.Justified) {marks : Marks} {l : Lit}
    (hmarks : marks.Covers n.trail.varCount) (hl : l.neg ∈ n.trail) :
    Succeeds (directlyRedundant n.store n.trail marks l) := by
  have hknown : l.var.index < n.trail.varCount := hs.trail.lt_varCount (l := l.neg) hl
  rw [directlyRedundant, Trail.cell_eq_ok.2 ⟨hknown, rfl⟩, ok_bind]
  split
  next => exact succeeds_pure _
  next h hreason =>
      obtain ⟨i, hi⟩ := List.mem_iff_getElem?.1 hl
      obtain ⟨c, as, hc, has, hneg⟩ := Network.exists_antecedents hs hi hreason
      rw [Store.fetch_eq_ok.2 hc, ok_bind, has, ok_bind]
      refine succeeds_allM fun a ha => ?_
      have ha' : a.var.index < n.trail.varCount :=
        hs.trail.lt_varCount (l := a.neg) (List.mem_of_mem_take (hneg a ha))
      exact succeeds_bind (Marks.succeeds_of hmarks ha') fun _ _ =>
        succeeds_bind (Trail.succeeds_cell ha') fun _ _ => succeeds_pure _

namespace Analysis

/-- The deep mode searches for one literal after the other, with the marks handed on. -/
theorem returns_of_dropRedundant (hs : n.Justified) : ∀ {rest : List Lit} (kept : Array Lit)
    {p : Probe}, (∀ l ∈ rest, l.neg ∈ n.trail) → p.Known n.trail.varCount →
      ∃ ls p', dropRedundant n.store n.trail rest kept p = .ok (ls, p') ∧
        p'.Known n.trail.varCount := by
  intro rest
  induction rest with
  | nil => exact fun {kept p} _ hp => ⟨kept, p, rfl, hp⟩
  | cons l rest ih =>
      intro kept p hrest hp
      have hrest' := fun a ha => hrest a (List.mem_cons_of_mem l ha)
      obtain ⟨b, p₁, hred, hp₁⟩ := returns_of_redundant hs (hrest l (by simp)) hp
      simp only [dropRedundant, hred, ok_bind]
      cases b with
      | true => exact ih _ hrest' hp₁
      | false => exact ih _ hrest' hp₁

/-- Minimisation is not refused in any mode. -/
theorem succeeds_minimise (hs : n.Justified) {m : Minimisation} {marks : Marks} {first : Lit}
    {rest : List Lit} (hmarks : marks.Covers n.trail.varCount) (hfirst : first.neg ∈ n.trail)
    (hrest : ∀ l ∈ rest, l.neg ∈ n.trail) :
    Succeeds (minimise m n.store n.trail marks first rest) := by
  have hknown : ∀ l ∈ first :: rest, l.var.index < n.trail.varCount := fun l hl => by
    rcases List.mem_cons.1 hl with rfl | hl
    · exact hs.trail.lt_varCount (l := l.neg) hfirst
    · exact hs.trail.lt_varCount (l := l.neg) (hrest l hl)
  have hclear := Marks.succeeds_clearAll hmarks hknown
  cases m with
  | never => exact succeeds_bind hclear fun _ _ => succeeds_pure _
  | basic =>
      refine succeeds_bind (succeeds_filterM fun l hl => ?_) fun _ _ =>
        succeeds_bind hclear fun _ _ => succeeds_pure _
      exact succeeds_bind (succeeds_directlyRedundant hs hmarks (hrest l hl)) fun _ _ =>
        succeeds_pure _
  -- the search may leave marks on literals that it has passed, so these are cleared as well
  | deep =>
      obtain ⟨ls, p, hdrop, hp⟩ :=
        returns_of_dropRedundant hs #[first] (p := ⟨marks, []⟩) hrest
          ⟨hmarks, fun l hl => absurd hl List.not_mem_nil⟩
      simp only [minimise, hdrop, ok_bind]
      refine succeeds_bind (Marks.succeeds_clearAll hp.marks fun l hl => ?_) fun _ _ =>
        succeeds_pure _
      rcases List.mem_append.1 hl with hl | hl
      · exact hknown l hl
      · exact hp.touched l hl

/-! ## The analysis -/

/-- A clause that is not empty has a lesson: if it has one literal it is a fact, otherwise there is
a second place. -/
theorem succeeds_lesson {t : Trail} {lits : Array Lit} (hsize : 0 < lits.size)
    (hknown : ∀ l ∈ lits.toList, l.var.index < t.varCount) : Succeeds (lesson t lits) := by
  have hlevel : ∀ l ∈ lits.toList, Succeeds (do return (← t.cell l.var).level) := fun l hl =>
    succeeds_bind (Trail.succeeds_cell (hknown l hl)) fun _ _ => succeeds_pure _
  rw [lesson]
  split
  next => exact succeeds_bind (succeeds_fetch hsize) fun _ _ => succeeds_pure _
  next hone =>
      refine succeeds_bind ?_ fun _ _ => succeeds_pure _
      have htwo : 1 < lits.size := by omega
      refine succeeds_bind (succeeds_fetch htwo) fun l hl => ?_
      have hmem : l ∈ lits.toList := by
        rw [fetch_eq_ok, ← Array.getElem?_toList] at hl
        exact List.mem_of_getElem? hl
      refine succeeds_bind (hlevel l hmem) fun start _ => ?_
      -- the literal of the highest level is looked for among the others
      have hzip : ∀ x ∈ lits.toList.zipIdx.drop 2, x.1 ∈ lits.toList := fun x hx =>
        List.fst_mem_of_mem_zipIdx (List.mem_of_mem_drop hx)
      obtain ⟨best, hbest, -⟩ := succeeds_foldlM (b := (1, start))
        (f := fun (best : Nat × Nat) (x : Lit × Nat) => do
          let k ← (do return (← t.cell x.1.var).level)
          return if k > best.2 then (x.2, k) else best)
        (fun rest (_ : Nat × Nat) => ∀ x ∈ rest, x.1 ∈ lits.toList)
        (fun x rest best hrest => by
          obtain ⟨k, hk⟩ := hlevel x.1 (hrest x (by simp))
          exact ⟨_, bind_eq_ok.2 ⟨k, hk, rfl⟩, fun y hy => hrest y (List.mem_cons_of_mem _ hy)⟩)
        hzip
      exact ⟨best, hbest⟩

/-- The analysis of a conflict returns, and what took part in it is known, unless it comes to a
decision in the middle of the current level. -/
theorem outcome_of_analyze (hs : n.Justified) {a : Analysis} {failed : Handle}
    (hconf : n.Conflict failed) (hclean : a.marks.Clean)
    (hmarks : a.marks.Covers n.trail.varCount) :
    (∃ x a', a.analyze n.store n.trail failed = .ok (x, a') ∧
      (∀ v ∈ x.vars, v.index < n.trail.varCount) ∧
      ∀ h ∈ x.constraints, ∃ c, n.store.get? h = some c) ∨
    ∃ l, n.trail.Misplaced l ∧
      a.analyze n.store n.trail failed = .error (.impliedWithoutReason l) := by
  have hr : n.Sound fun _ => False := ⟨fun _ => False.elim, fun _ => False.elim⟩
  rw [analyze]
  split
  next => exact Or.inl ⟨_, a, rfl, by simp, by simp⟩
  next hgr =>
      have hlevel : 0 < n.trail.level := by
        simp only [Trail.isGround, beq_iff_eq] at hgr
        omega
      obtain ⟨c, hc, hfalse, -⟩ := id hconf
      have hcf := hs.formed failed c hc
      obtain ⟨as, has⟩ := Constraint.succeeds_antecedents false hcf
      have hneg := (Constraint.antecedents_of_falsified hs.trail hcf hfalse has).1
      obtain ⟨d₀, htake, hg₀⟩ := Derivation.returns_of_takeConstraint
        (d := ⟨a.marks, #[], 0, #[], #[]⟩) ⟨hmarks, by simp, by simp⟩ hc has fun b hb =>
          hs.trail.lt_varCount (l := b.neg) (hneg b hb)
      obtain ⟨hd₀, hpos⟩ := deriving_of_conflict hs hr hlevel hconf hclean htake
      simp only [htake, ok_bind]
      -- only the walk can be refused: what follows it returns for whatever it has derived
      rcases Derivation.outcome_of_resolve hs hlevel (Nat.le_refl _) hd₀ hpos hg₀ with
        ⟨last, d, hres, hg⟩ | ⟨l, hl, hstuck⟩
      · left
        obtain ⟨hlast, -, hd⟩ := Derivation.derived_of_resolve hs hr hd₀ hpos hres
        have hrest : ∀ l ∈ d.lits.toList, l.neg ∈ n.trail := fun l hl => (hd.lits l hl).1
        have hlast' : last.neg.neg ∈ n.trail := by rwa [Lit.neg_neg]
        obtain ⟨⟨ls, marks⟩, hmin⟩ :=
          succeeds_minimise hs (m := a.minimisation) hg.marks hlast' hrest
        obtain ⟨-, kept, hls, hmini⟩ := minimised_of_minimise hd.marks_lits hmin
        have hsize : 0 < ls.size := by
          rw [← Array.length_toList, hls]
          exact Nat.succ_pos _
        obtain ⟨lesson, hlesson⟩ := succeeds_lesson (t := n.trail) hsize fun l hl => by
            rw [hls] at hl
            rcases List.mem_cons.1 hl with rfl | hl
            · exact hs.trail.lt_varCount (l := last) hlast
            · exact hs.trail.lt_varCount (l := l.neg) (hrest l (hmini.sublist.subset hl))
        refine ⟨⟨lesson, d.vars.toList, d.constraints.toList⟩, { a with
          marks
          derivedLits := a.derivedLits + (d.lits.toList.length + 1)
          learntLits := a.learntLits + ls.size }, ?_, hg.vars, hg.constraints⟩
        simp only [Trail.size, hres, hmin, hlesson, ok_bind]
        rfl
      · refine Or.inr ⟨l, hl, ?_⟩
        simp only [Trail.size, hstuck]
        rfl

/-- Where every level begins with its decision, the analysis of a conflict returns. -/
theorem returns_of_analyze (hs : n.Justified) (hled : n.trail.Led) {a : Analysis}
    {failed : Handle} (hconf : n.Conflict failed) (hclean : a.marks.Clean)
    (hmarks : a.marks.Covers n.trail.varCount) :
    ∃ x a', a.analyze n.store n.trail failed = .ok (x, a') ∧
      (∀ v ∈ x.vars, v.index < n.trail.varCount) ∧
      ∀ h ∈ x.constraints, ∃ c, n.store.get? h = some c := by
  refine (outcome_of_analyze hs hconf hclean hmarks).resolve_right ?_
  rintro ⟨l, hl, -⟩
  exact hled.not_misplaced hl

/-! ## Failed assumptions -/

/-- A marked literal passes its mark on to known variables. -/
theorem succeeds_traceLit (hs : n.Justified) {marks : Marks} {l : Lit} (found : Array Lit)
    (hmarks : marks.Covers n.trail.varCount) (hl : l ∈ n.trail) :
    Succeeds (traceLit n.store n.trail (found, marks) l) := by
  have hknown := hs.trail.lt_varCount hl
  refine succeeds_bind (Marks.succeeds_of hmarks hknown) fun mark _ => ?_
  split
  · exact succeeds_pure _
  · refine succeeds_bind (Trail.succeeds_cell hknown) fun cell hcell => ?_
    obtain ⟨-, rfl⟩ := Trail.cell_eq_ok.1 hcell
    split
    next => exact succeeds_bind (Marks.succeeds_set hmarks hknown _) fun _ _ => succeeds_pure _
    next h hreason =>
        -- the reason is stored, and its antecedents are on the trail, so their variables are known
        obtain ⟨i, hi⟩ := List.mem_iff_getElem?.1 hl
        obtain ⟨c, as, hc, has, hneg⟩ := Network.exists_antecedents hs hi hreason
        refine succeeds_bind ⟨c, Store.fetch_eq_ok.2 hc⟩ fun d hd => ?_
        obtain rfl := Except.ok.inj ((Store.fetch_eq_ok.2 hc).symm.trans hd)
        refine succeeds_bind ⟨as, has⟩ fun bs hbs => ?_
        obtain rfl := Except.ok.inj (has.symm.trans hbs)
        obtain ⟨marks', hfold, hmarks', -⟩ := succeeds_foldlM
          (f := fun (m : Marks) a => do
            if (← n.trail.cell a.var).level = 0 then return m else m.set a.var .inClause)
          (fun rest m => m.Covers n.trail.varCount ∧ ∀ a ∈ rest, a.neg ∈ n.trail)
          (fun a rest m ⟨hm, hrest⟩ => by
            have ha : a.var.index < n.trail.varCount :=
              hs.trail.lt_varCount (l := a.neg) (hrest a List.mem_cons_self)
            have hrest' : ∀ b ∈ rest, b.neg ∈ n.trail := fun b hb =>
              hrest b (List.mem_cons_of_mem _ hb)
            obtain ⟨cell, hcell⟩ := Trail.succeeds_cell ha
            obtain ⟨m', hset⟩ := Marks.succeeds_set hm ha .inClause
            simp only [hcell, ok_bind]
            split
            · exact ⟨m, rfl, hm, hrest'⟩
            · exact ⟨m', hset, Marks.covers_of_set hm hset, hrest'⟩)
          ⟨hmarks, fun a ha => List.mem_of_mem_take (hneg a ha)⟩
        exact succeeds_bind ⟨marks', hfold⟩ fun m hm => by
          obtain rfl := Except.ok.inj (hfold.symm.trans hm)
          exact succeeds_bind (Marks.succeeds_set hmarks' hknown _) fun _ _ => succeeds_pure _

/-- Tracing a literal back to the decisions is not refused. -/
theorem succeeds_failedAssumptions (hs : n.Justified) {a : Analysis} {p : Lit}
    (hmarks : a.marks.Covers n.trail.varCount) (hp : p.var.index < n.trail.varCount) :
    Succeeds (a.failedAssumptions n.store n.trail p) := by
  rw [failedAssumptions]
  split
  next => exact succeeds_pure _
  next =>
      -- the walk goes down the trail and marks variables as it goes
      refine succeeds_bind (Marks.succeeds_set hmarks hp _) fun marks hset => ?_
      obtain ⟨⟨found, marks'⟩, hfold, hmarks', -⟩ := succeeds_foldlM
        (f := traceLit n.store n.trail)
        (fun rest (s : Array Lit × Marks) => s.2.Covers n.trail.varCount ∧ ∀ l ∈ rest, l ∈ n.trail)
        (fun l rest s h => by
          obtain ⟨hm, hrest⟩ := h
          obtain ⟨⟨found, m'⟩, ht⟩ := succeeds_traceLit hs s.1 hm (hrest l List.mem_cons_self)
          exact ⟨(found, m'), ht, covers_of_traceLit hm ht, fun m hm =>
            hrest m (List.mem_cons_of_mem _ hm)⟩)
        (show (#[p], marks).2.Covers n.trail.varCount ∧
            ∀ l ∈ (n.trail.above 0).reverse, l ∈ n.trail from
          ⟨Marks.covers_of_set hmarks hset, fun l hl =>
            List.mem_of_mem_drop (List.mem_reverse.1 hl)⟩)
      refine succeeds_bind ⟨_, hfold⟩ fun x hx => ?_
      obtain rfl := Except.ok.inj (hfold.symm.trans hx)
      exact succeeds_bind (Marks.succeeds_set hmarks' hp _) fun _ _ => succeeds_pure _

end Analysis

end

end CardSat
