import CardSat.Analysis
import CardSat.Proofs.Analysis.Marks
import CardSat.Proofs.Network

set_option autoImplicit false

/-! # Deriving a clause from a conflict

A derivation goes down the trail. `Deriving` is its invariant when the literals from position `i` on
have been dealt with: the literals taken so far, the complements of the marked literals of the
current level below `i`, and those still to be taken, cannot all be false. The number of such marked
literals is `pending`.

Each step is a resolution, which keeps the invariant (`deriving_of_takeConstraint`); when one marked
literal of the current level is left, the derivation is complete (`derived_of_resolve`).

The three groups of literals in the invariant are what a resolution moves between. Taking a literal
moves it from the third group to the first one if it is of a lower level, and to the second one
otherwise (`Deriving.lower`, `Deriving.current`). Coming to a marked literal moves its complement
from the second group to the third one (`deriving_of_marked`), where the antecedents of its reason
replace it (`Deriving.replace`). Literals of the ground level and literals that were taken before
are dropped (`Deriving.skip`, `Deriving.again`). So a disjunction holds all the way, and at the end
the second group is empty.

Nothing depends on which constraint has failed or where the marks come from, only on the antecedents
being false and earlier on the trail. That they are is the soundness of the reasons
(`Network.implied_of_reason`).
-/

namespace CardSat

namespace Network

/-- The antecedents of a forced literal came before it and are false, and it is true in the
worlds of interest unless one of them is. -/
theorem implied_of_reason {n : Network} {R : World → Prop} (hs : n.Justified) (hr : n.Sound R)
    {i : Nat} {m : Lit} {h : Handle} {c : Constraint} {as : List Lit}
    (hi : n.trail.lits.toList[i]? = some m) (hreason : n.trail.reasonOf m.var = some h)
    (hc : n.store.get? h = some c) (has : c.antecedents n.trail true = .ok as) :
    (∀ a ∈ as, a.neg ∈ n.trail.lits.toList.take i) ∧
      ∀ w, R w → m.holds w = true ∨ ∃ a ∈ as, a.holds w = true := by
  obtain ⟨d, hd, he⟩ := hs.reasons i m h hi hreason
  obtain rfl := Option.some.inj (hc.symm.trans hd)
  obtain ⟨hneg, himp⟩ := Constraint.antecedents_of_explains hs.trail (hs.formed h c hc)
    (fun l hl => List.mem_of_mem_take hl) (List.mem_of_getElem? hi) he has
  exact ⟨hneg, fun w hw => himp w (hr.stored w hw h c hc)⟩

end Network

namespace Derivation

/-- Whether a true literal belongs to the current level and is marked. -/
def isOpen (t : Trail) (marks : Marks) (m : Lit) : Bool :=
  decide (t.levelOf m.var = t.level) && decide (marks.markOf m.var ≠ .clear)

/-- In terms of levels and marks. -/
theorem isOpen_eq_true {t : Trail} {marks : Marks} {m : Lit} :
    isOpen t marks m = true ↔ t.levelOf m.var = t.level ∧ marks.markOf m.var ≠ .clear := by
  simp [isOpen]

/-- The invariant of a derivation with the literals `rest` still to be taken. -/
structure Deriving (t : Trail) (R : World → Prop) (i : Nat) (rest : List Lit)
    (d : Derivation) : Prop where
  lits : ∀ l ∈ d.lits.toList, l.neg ∈ t ∧ 0 < t.levelOf l.var ∧ t.levelOf l.var < t.level
  distinct : (d.lits.toList.map Lit.var).Nodup
  marks : ∀ v, d.marks.markOf v = .clear ∨ d.marks.markOf v = .inClause
  lits_marked : ∀ l ∈ d.lits.toList, d.marks.markOf l.var ≠ .clear
  marked : ∀ v, d.marks.markOf v ≠ .clear → (∃ l ∈ d.lits.toList, l.var = v) ∨
    ∃ m ∈ t.lits.toList.take i, m.var = v ∧ t.levelOf v = t.level
  pending : d.pending = (t.lits.toList.take i).countP (isOpen t d.marks)
  holds : ∀ w, R w → (∃ l ∈ d.lits.toList, l.holds w = true) ∨
    (∃ m ∈ t.lits.toList.take i, isOpen t d.marks m = true ∧ m.neg.holds w = true) ∨
    ∃ a ∈ rest, a.holds w = true

variable {t : Trail} {R : World → Prop} {i : Nat} {rest : List Lit} {d d' : Derivation}

/-- The derivation starts from literals of which one has to hold. -/
theorem deriving_start {as : List Lit} (hclean : d.marks.Clean) (hlits : d.lits = #[])
    (hpending : d.pending = 0) (has : ∀ w, R w → ∃ a ∈ as, a.holds w = true) :
    Deriving t R i as d where
  lits l hl := by simp [hlits] at hl
  distinct := by simp [hlits]
  marks v := Or.inl (hclean v)
  lits_marked l hl := by simp [hlits] at hl
  marked v hv := absurd (hclean v) hv
  pending := by
    rw [hpending, List.countP_eq_zero.2 fun m _ => by simp [isOpen, hclean m.var]]
    rfl
  holds w hw := Or.inr (Or.inr (has w hw))

/-! ## Taking literals

A literal that is taken for the first time gets a mark, and this is the only mark that changes. So
what was open stays open, and one more literal is open if the new one belongs to the current level.
The lemmas of this part say so under the assumption `hmarks` on the new marks, which both
constructors of `Takes` with a new mark provide. -/

/-- What taking the literal `a` does: nothing if it is marked or of the ground level, otherwise it
is marked, and counted or added. -/
inductive Takes (t : Trail) (d : Derivation) (a : Lit) : Derivation → Prop
  | again (hmark : d.marks.markOf a.var ≠ .clear) : Takes t d a d
  | ground (hlevel : t.levelOf a.var = 0) : Takes t d a d
  | current {marks : Marks} {vars : Array Var} (hclear : d.marks.markOf a.var = .clear)
      (hmarks : ∀ v, marks.markOf v = if v = a.var then .inClause else d.marks.markOf v)
      (hlevel : t.level ≤ t.levelOf a.var) :
      Takes t d a { d with marks, vars, pending := d.pending + 1 }
  | lower {marks : Marks} {vars : Array Var} (hclear : d.marks.markOf a.var = .clear)
      (hmarks : ∀ v, marks.markOf v = if v = a.var then .inClause else d.marks.markOf v)
      (hpos : 0 < t.levelOf a.var) (hlevel : t.levelOf a.var < t.level) :
      Takes t d a { d with marks, vars, lits := d.lits.push a }

/-- Taking a literal does one of the four things that `Takes` lists. -/
theorem takes_of_takeLit {a : Lit} (h : d.takeLit t a = .ok d') : Takes t d a d' := by
  simp only [takeLit, bind_eq_ok] at h
  obtain ⟨x, hx, h⟩ := h
  have hmark := Marks.of_eq_ok hx
  split at h
  next hne =>
      obtain rfl := pure_eq_ok.1 h
      exact .again (hmark ▸ hne)
  next hclear =>
      have hclear' : d.marks.markOf a.var = .clear := hmark.trans (not_not.1 hclear)
      simp only [bind_eq_ok, Trail.cell_eq_ok] at h
      obtain ⟨cell, ⟨-, rfl⟩, h⟩ := h
      split at h
      next hzero =>
          obtain rfl := pure_eq_ok.1 h
          exact .ground hzero
      next hpos =>
          simp only [bind_eq_ok] at h
          obtain ⟨marks, hset, h⟩ := h
          split at h
          next hge =>
              obtain rfl := pure_eq_ok.1 h
              exact .current hclear' (Marks.set_eq_ok hset) hge
          next hlt =>
              obtain rfl := pure_eq_ok.1 h
              exact .lower hclear' (Marks.set_eq_ok hset) (Nat.pos_of_ne_zero hpos)
                (Nat.not_le.1 hlt)

/-- A literal need not be taken if it holds only where another one does. -/
theorem Deriving.skip {a : Lit} (h : Deriving t R i (a :: rest) d)
    (ha : ∀ w, R w → a.holds w = true → (∃ l ∈ d.lits.toList, l.holds w = true) ∨
      ∃ m ∈ t.lits.toList.take i, isOpen t d.marks m = true ∧ m.neg.holds w = true) :
    Deriving t R i rest d :=
  { h with
    holds := fun w hw => by
      rcases h.holds w hw with hl | hm | ⟨b, hb, hbw⟩
      · exact Or.inl hl
      · exact Or.inr (Or.inl hm)
      · rcases List.mem_cons.1 hb with rfl | hb
        · exact (ha w hw hbw).imp_right Or.inl
        · exact Or.inr (Or.inr ⟨b, hb, hbw⟩) }

/-- A marked literal was taken before. -/
theorem Deriving.again {a : Lit} (hv : t.Valid) (h : Deriving t R i (a :: rest) d)
    (ha : a.neg ∈ t) (hmark : d.marks.markOf a.var ≠ .clear) : Deriving t R i rest d := by
  refine h.skip fun w _ haw => ?_
  rcases h.marked a.var hmark with ⟨l, hl, hla⟩ | ⟨m, hm, hma, hlev⟩
  · refine Or.inl ⟨l, hl, ?_⟩
    have hneg := hv.eq_of_var_eq (h.lits l hl).1 ha (by simpa using hla)
    rw [← Lit.neg_neg l, hneg, Lit.neg_neg]
    exact haw
  · refine Or.inr ⟨m, hm, isOpen_eq_true.2 ⟨hma ▸ hlev, hma ▸ hmark⟩, ?_⟩
    have hneg := hv.eq_of_var_eq (List.mem_of_mem_take hm) ha (by simpa using hma)
    rw [hneg, Lit.neg_neg]
    exact haw

section

variable {a : Lit} {marks : Marks} {vars : Array Var}
  (hmarks : ∀ v, marks.markOf v = if v = a.var then .inClause else d.marks.markOf v)
include hmarks

/-- The literal that was taken is marked. -/
theorem ne_clear_self : marks.markOf a.var ≠ .clear := by
  rw [hmarks, if_pos rfl]
  decide

/-- No mark is lost. -/
theorem ne_clear_of_ne_clear {v : Var} (hv : d.marks.markOf v ≠ .clear) :
    marks.markOf v ≠ .clear := by
  rw [hmarks]
  split
  · decide
  · exact hv

/-- No other variable gets a mark. -/
theorem eq_or_ne_clear {v : Var} (hv : marks.markOf v ≠ .clear) :
    v = a.var ∨ d.marks.markOf v ≠ .clear := by
  rw [hmarks] at hv
  split at hv
  next he => exact Or.inl he
  next => exact Or.inr hv

/-- What was open stays open. -/
theorem isOpen_of_isOpen {m : Lit} (hm : isOpen t d.marks m = true) : isOpen t marks m = true := by
  obtain ⟨hl, hm⟩ := isOpen_eq_true.1 hm
  exact isOpen_eq_true.2 ⟨hl, ne_clear_of_ne_clear hmarks hm⟩

/-- Whether a literal of another variable is open does not change. -/
theorem isOpen_of_ne {m : Lit} (hm : m.var ≠ a.var) : isOpen t marks m = isOpen t d.marks m := by
  simp only [isOpen, hmarks, if_neg hm]

/-- A literal of the current level is counted. -/
theorem countP_of_current {b : Lit} (hv : t.Valid) (hb : b ∈ t.lits.toList.take i)
    (hba : b.var = a.var) (hclear : d.marks.markOf a.var = .clear)
    (hlev : t.levelOf a.var = t.level) :
    (t.lits.toList.take i).countP (isOpen t marks) =
      (t.lits.toList.take i).countP (isOpen t d.marks) + 1 := by
  have hnd : (t.lits.toList.take i).Nodup := hv.distinct.of_map.sublist (List.take_sublist _ _)
  refine countP_insert hnd hb (by simp [isOpen, hba, hclear])
    (isOpen_eq_true.2 ⟨hba ▸ hlev, hba ▸ ne_clear_self hmarks⟩) fun m hm hne => ?_
  exact isOpen_of_ne hmarks fun he =>
    hne (hv.eq_of_var_eq (List.mem_of_mem_take hm) (List.mem_of_mem_take hb) (he.trans hba.symm))

/-- A literal of a lower level is not counted. -/
theorem countP_of_lower (hlevel : t.levelOf a.var < t.level) (ms : List Lit) :
    ms.countP (isOpen t marks) = ms.countP (isOpen t d.marks) := by
  refine List.countP_congr fun m _ => ?_
  by_cases hma : m.var = a.var
  · have hne : t.levelOf m.var ≠ t.level := hma ▸ Nat.ne_of_lt hlevel
    simp [isOpen, hne]
  · rw [isOpen_of_ne hmarks hma]

/-- There is only one kind of mark, as before. -/
theorem Deriving.marks_marked (h : Deriving t R i rest d) (v : Var) :
    marks.markOf v = .clear ∨ marks.markOf v = .inClause := by
  rw [hmarks]
  split
  · exact Or.inr rfl
  · exact h.marks v

/-- A literal of the current level is marked. -/
theorem Deriving.current (hv : t.Valid) (h : Deriving t R i (a :: rest) d)
    (ha : a.neg ∈ t.lits.toList.take i) (hclear : d.marks.markOf a.var = .clear)
    (hlevel : t.level ≤ t.levelOf a.var) :
    Deriving t R i rest { d with marks, vars, pending := d.pending + 1 } := by
  have hat : a.neg ∈ t := List.mem_of_mem_take ha
  have hcur : t.levelOf a.var = t.level := Nat.le_antisymm (hv.levelOf_le (l := a.neg) hat) hlevel
  have hself : isOpen t marks a.neg = true := isOpen_eq_true.2 ⟨hcur, ne_clear_self hmarks⟩
  refine ⟨h.lits, h.distinct, h.marks_marked hmarks,
    fun l hl => ne_clear_of_ne_clear hmarks (h.lits_marked l hl), fun v hvm => ?_, ?_,
    fun w hw => ?_⟩
  · rcases eq_or_ne_clear hmarks hvm with rfl | hvm
    · exact Or.inr ⟨a.neg, ha, rfl, hcur⟩
    · exact h.marked v hvm
  · rw [countP_of_current hmarks hv ha rfl hclear hcur, h.pending]
    simp
  · rcases h.holds w hw with hl | ⟨m, hm, hmo, hmw⟩ | ⟨b, hb, hbw⟩
    · exact Or.inl hl
    · exact Or.inr (Or.inl ⟨m, hm, isOpen_of_isOpen hmarks hmo, hmw⟩)
    · rcases List.mem_cons.1 hb with rfl | hb
      · exact Or.inr (Or.inl ⟨b.neg, ha, hself, by rwa [Lit.neg_neg]⟩)
      · exact Or.inr (Or.inr ⟨b, hb, hbw⟩)

/-- A literal of a lower level is added. -/
theorem Deriving.lower (h : Deriving t R i (a :: rest) d) (ha : a.neg ∈ t)
    (hclear : d.marks.markOf a.var = .clear) (hpos : 0 < t.levelOf a.var)
    (hlevel : t.levelOf a.var < t.level) :
    Deriving t R i rest { d with marks, vars, lits := d.lits.push a } := by
  have hmem : ∀ l, l ∈ (d.lits.push a).toList ↔ l ∈ d.lits.toList ∨ l = a := by simp
  refine ⟨fun l hl => ?_, ?_, h.marks_marked hmarks, fun l hl => ?_, fun v hvm => ?_, ?_,
    fun w hw => ?_⟩
  · rcases (hmem l).1 hl with hl | rfl
    · exact h.lits l hl
    · exact ⟨ha, hpos, hlevel⟩
  · rw [Array.toList_push, List.map_append, List.nodup_append]
    refine ⟨h.distinct, by simp, ?_⟩
    -- its variable had no mark, so the clause does not contain it yet
    rintro v hvl u hu rfl
    obtain ⟨l, hl, rfl⟩ := List.mem_map.1 hvl
    exact h.lits_marked l hl ((by simpa using hu : l.var = a.var) ▸ hclear)
  · rcases (hmem l).1 hl with hl | rfl
    · exact ne_clear_of_ne_clear hmarks (h.lits_marked l hl)
    · exact ne_clear_self hmarks
  · rcases eq_or_ne_clear hmarks hvm with rfl | hvm
    · exact Or.inl ⟨a, (hmem a).2 (Or.inr rfl), rfl⟩
    · exact (h.marked v hvm).imp_left fun ⟨l, hl, hlv⟩ => ⟨l, (hmem l).2 (Or.inl hl), hlv⟩
  · rw [countP_of_lower hmarks hlevel, h.pending]
  · rcases h.holds w hw with ⟨l, hl, hlw⟩ | ⟨m, hm, hmo, hmw⟩ | ⟨b, hb, hbw⟩
    · exact Or.inl ⟨l, (hmem l).2 (Or.inl hl), hlw⟩
    · exact Or.inr (Or.inl ⟨m, hm, isOpen_of_isOpen hmarks hmo, hmw⟩)
    · rcases List.mem_cons.1 hb with rfl | hb
      · exact Or.inl ⟨b, (hmem b).2 (Or.inr rfl), hbw⟩
      · exact Or.inr (Or.inr ⟨b, hb, hbw⟩)

end

/-- A literal that was taken is marked, unless it is of the ground level, and no mark is lost. -/
theorem Takes.marked {a : Lit} (ht : Takes t d a d') :
    (t.levelOf a.var = 0 ∨ d'.marks.markOf a.var ≠ .clear) ∧
      ∀ v, d.marks.markOf v ≠ .clear → d'.marks.markOf v ≠ .clear := by
  cases ht with
  | again hmark => exact ⟨Or.inr hmark, fun _ => id⟩
  | ground hlevel => exact ⟨Or.inl hlevel, fun _ => id⟩
  | current _ hmarks _ => exact ⟨Or.inr (ne_clear_self hmarks), fun _ => ne_clear_of_ne_clear hmarks⟩
  | lower _ hmarks _ _ => exact ⟨Or.inr (ne_clear_self hmarks), fun _ => ne_clear_of_ne_clear hmarks⟩

/-- Taking all literals of a list marks them. -/
theorem marked_of_takeLits {as : List Lit} (ht : as.foldlM (takeLit t) d = .ok d') :
    (∀ a ∈ as, t.levelOf a.var = 0 ∨ d'.marks.markOf a.var ≠ .clear) ∧
      ∀ v, d.marks.markOf v ≠ .clear → d'.marks.markOf v ≠ .clear := by
  let P : List Lit → Derivation → Prop := fun rest d₁ =>
    (∀ a ∈ as, a ∈ rest ∨ t.levelOf a.var = 0 ∨ d₁.marks.markOf a.var ≠ .clear) ∧
      ∀ v, d.marks.markOf v ≠ .clear → d₁.marks.markOf v ≠ .clear
  have hstep : ∀ a rest d₁ d₂, P (a :: rest) d₁ → d₁.takeLit t a = .ok d₂ → P rest d₂ := by
    rintro a rest d₁ d₂ ⟨hdone, hgrown⟩ htake
    obtain ⟨hself, hgrow⟩ := (takes_of_takeLit htake).marked
    refine ⟨fun b hb => ?_, fun v hvm => hgrow v (hgrown v hvm)⟩
    rcases hdone b hb with hb | hb | hb
    · rcases List.mem_cons.1 hb with rfl | hb
      · exact Or.inr hself
      · exact Or.inl hb
    · exact Or.inr (Or.inl hb)
    · exact Or.inr (Or.inr (hgrow _ hb))
  have hend : P [] d' := foldlM_ok P hstep ⟨fun a ha => Or.inl ha, fun _ => id⟩ ht
  exact ⟨fun a ha => (hend.1 a ha).resolve_left (by simp), hend.2⟩

/-- Taking a literal that is false and stands below position `i`. -/
theorem deriving_of_takeLit {a : Lit} (hv : t.Valid)
    (hground : ∀ w, R w → ∀ l ∈ t, t.levelOf l.var = 0 → l.holds w = true)
    (h : Deriving t R i (a :: rest) d) (ha : a.neg ∈ t.lits.toList.take i)
    (ht : d.takeLit t a = .ok d') : Deriving t R i rest d' := by
  have hat : a.neg ∈ t := List.mem_of_mem_take ha
  cases takes_of_takeLit ht with
  | again hmark => exact h.again hv hat hmark
  | ground hlevel =>
      -- the literal is false in every world of interest
      refine h.skip fun w hw haw => ?_
      have hneg := hground w hw a.neg hat hlevel
      rw [Lit.holds_neg, haw] at hneg
      cases hneg
  | current hclear hmarks hlevel => exact h.current hmarks hv ha hclear hlevel
  | lower hclear hmarks hpos hlevel => exact h.lower hmarks hat hclear hpos hlevel

/-- Taking all literals of a list. -/
theorem deriving_of_takeLits {as : List Lit} (hv : t.Valid)
    (hground : ∀ w, R w → ∀ l ∈ t, t.levelOf l.var = 0 → l.holds w = true)
    (h : Deriving t R i as d) (has : ∀ a ∈ as, a.neg ∈ t.lits.toList.take i)
    (ht : as.foldlM (takeLit t) d = .ok d') : Deriving t R i [] d' := by
  let P : List Lit → Derivation → Prop := fun rest d₁ =>
    Deriving t R i rest d₁ ∧ ∀ a ∈ rest, a.neg ∈ t.lits.toList.take i
  have hend : P [] d' := foldlM_ok P (fun a rest d₁ d₂ h₁ htake =>
    ⟨deriving_of_takeLit hv hground h₁.1 (h₁.2 a (by simp)) htake,
      fun b hb => h₁.2 b (List.mem_cons_of_mem _ hb)⟩) ⟨h, has⟩ ht
  exact hend.1

/-- Taking the antecedents of a constraint. -/
theorem deriving_of_takeConstraint {store : Store} {h : Handle} {skip : Bool} (hv : t.Valid)
    (hground : ∀ w, R w → ∀ l ∈ t, t.levelOf l.var = 0 → l.holds w = true)
    (hd : ∀ c as, store.get? h = some c → c.antecedents t skip = .ok as →
      Deriving t R i as d ∧ ∀ a ∈ as, a.neg ∈ t.lits.toList.take i)
    (ht : d.takeConstraint store t h skip = .ok d') :
    Deriving t R i [] d' ∧ (∀ v, d.marks.markOf v ≠ .clear → d'.marks.markOf v ≠ .clear) ∧
      ∃ c as, store.get? h = some c ∧ c.antecedents t skip = .ok as ∧
        ∀ a ∈ as, t.levelOf a.var = 0 ∨ d'.marks.markOf a.var ≠ .clear := by
  simp only [takeConstraint, bind_eq_ok, Store.fetch_eq_ok] at ht
  obtain ⟨c, hc, as, has, ht⟩ := ht
  obtain ⟨hder, hneg⟩ := hd c as hc has
  have hder' := deriving_of_takeLits hv hground
    (d := { d with constraints := d.constraints.push h }) { hder with } hneg ht
  obtain ⟨htaken, hgrow⟩ := marked_of_takeLits ht
  exact ⟨hder', hgrow, c, as, hc, has, htaken⟩

/-! ## Resolving

Going down by one position leaves a literal without a mark alone. A marked one is set aside, since
it is of the current level as long as something is pending, and then either nothing else is pending
and the walk is over, or its antecedents are taken. A literal of the current level that is set aside
with others pending cannot be a decision; that it is not is not needed here, since a decision makes
the walk fail. -/

/-- Passing a literal without a mark. -/
theorem deriving_of_clear {l : Lit} (h : Deriving t R (i + 1) [] d)
    (hi : t.lits.toList[i]? = some l) (hl : d.marks.markOf l.var = .clear) :
    Deriving t R i [] d := by
  refine { h with marked := fun v hvm => ?_, pending := ?_, holds := fun w hw => ?_ }
  · refine (h.marked v hvm).imp_right (Trail.exists_mem_take hi ?_)
    rintro rfl
    exact hvm hl
  · rw [h.pending, List.take_add_one, hi, Option.toList_some, List.countP_append,
      List.countP_singleton, if_neg (by simp [isOpen, hl])]
    rfl
  · rcases h.holds w hw with hlit | ⟨m, hm, hmo, hmw⟩ | hno
    · exact Or.inl hlit
    · rcases (Trail.mem_take_succ hi).1 hm with hm | rfl
      · exact Or.inr (Or.inl ⟨m, hm, hmo, hmw⟩)
      · exact absurd hl (isOpen_eq_true.1 hmo).2
    · exact Or.inr (Or.inr hno)

/-- While a literal of the current level is pending, the newest literal not yet passed is of that
level as well. -/
theorem Deriving.level_of_pending {l : Lit} (hv : t.Valid) (h : Deriving t R (i + 1) [] d)
    (hpos : 0 < d.pending) (hi : t.lits.toList[i]? = some l) : t.levelOf l.var = t.level := by
  have hcount : 0 < (t.lits.toList.take (i + 1)).countP (isOpen t d.marks) := by
    have := h.pending
    omega
  obtain ⟨m, hm, hmo⟩ := List.countP_pos_iff.1 hcount
  refine Nat.le_antisymm (hv.levelOf_le (List.mem_of_getElem? hi)) ?_
  rw [← (isOpen_eq_true.1 hmo).1]
  rcases (Trail.mem_take_succ hi).1 hm with hm | rfl
  · exact hv.levelOf_le_of_mem_take hm hi
  · exact Nat.le_refl _

/-- A marked literal of the current level is pending. -/
theorem Deriving.pending_pos {v : Var} (h : Deriving t R i rest d)
    (hmark : d.marks.markOf v ≠ .clear) (hlev : t.levelOf v = t.level) : 0 < d.pending := by
  rw [h.pending]
  rcases h.marked v hmark with ⟨m, hm, rfl⟩ | ⟨m, hm, rfl, -⟩
  · have := (h.lits m hm).2.2
    omega
  · have := List.countP_pos_iff.2 ⟨m, hm, isOpen_eq_true.2 ⟨hlev, hmark⟩⟩
    omega

/-- Setting aside the newest marked literal of the current level. -/
theorem deriving_of_marked {l : Lit} {marks : Marks} (hv : t.Valid)
    (h : Deriving t R (i + 1) [] d) (hpos : 0 < d.pending) (hi : t.lits.toList[i]? = some l)
    (hl : d.marks.markOf l.var ≠ .clear) (hset : d.marks.set l.var .clear = .ok marks) :
    t.levelOf l.var = t.level ∧
      Deriving t R i [l.neg] { d with marks, pending := d.pending - 1 } := by
  have hmarks := Marks.set_eq_ok hset
  have hlev := h.level_of_pending hv hpos hi
  -- the literal that is set aside is the only one of its variable on the trail, and none of the
  -- clause
  have hne : ∀ m ∈ t.lits.toList.take i, m.var ≠ l.var := fun m => hv.var_ne_of_mem_take hi
  have hlit : ∀ a ∈ d.lits.toList, a.var ≠ l.var := by
    intro a ha he
    have := (h.lits a ha).2.2
    rw [he] at this
    omega
  have hopen : ∀ m ∈ t.lits.toList.take i, isOpen t marks m = isOpen t d.marks m := by
    intro m hm
    simp only [isOpen, hmarks, if_neg (hne m hm)]
  have hself : isOpen t d.marks l = true := isOpen_eq_true.2 ⟨hlev, hl⟩
  refine ⟨hlev, h.lits, h.distinct, fun v => ?_, fun a ha => ?_, fun v hvm => ?_, ?_,
    fun w hw => ?_⟩
  · simp only [hmarks]
    split
    · exact Or.inl rfl
    · exact h.marks v
  · simp only [hmarks, if_neg (hlit a ha)]
    exact h.lits_marked a ha
  · obtain ⟨hvl, hvm'⟩ := Marks.ne_clear_of_set hset hvm
    exact (h.marked v hvm').imp_right (Trail.exists_mem_take hi hvl)
  · have hcount : (t.lits.toList.take i).countP (isOpen t marks) =
        (t.lits.toList.take i).countP (isOpen t d.marks) :=
      List.countP_congr fun m hm => by rw [hopen m hm]
    have := h.pending
    rw [List.take_add_one, hi, Option.toList_some, List.countP_append, List.countP_singleton,
      if_pos hself] at this
    simp only [hcount, this]
    omega
  · rcases h.holds w hw with hlw | ⟨m, hm, hmo, hmw⟩ | ⟨a, ha, -⟩
    · exact Or.inl hlw
    · rcases (Trail.mem_take_succ hi).1 hm with hm | rfl
      · exact Or.inr (Or.inl ⟨m, hm, (hopen m hm).trans hmo, hmw⟩)
      · exact Or.inr (Or.inr ⟨m.neg, by simp, hmw⟩)
    · cases ha

/-- A literal set aside is replaced by those of which one has to hold unless it does. -/
theorem Deriving.replace {l : Lit} {as : List Lit} (h : Deriving t R i [l.neg] d)
    (himp : ∀ w, R w → l.holds w = true ∨ ∃ a ∈ as, a.holds w = true) : Deriving t R i as d :=
  { h with
    holds := fun w hw => by
      rcases h.holds w hw with hlit | hm | ⟨b, hb, hbw⟩
      · exact Or.inl hlit
      · exact Or.inr (Or.inl hm)
      · rw [List.mem_singleton.1 hb, Lit.holds_neg] at hbw
        refine Or.inr (Or.inr ((himp w hw).resolve_left fun hlw => ?_))
        rw [hlw] at hbw
        cases hbw }

/-- With more marks, no fewer literals are pending. -/
theorem Deriving.pending_le {rest' : List Lit} (h : Deriving t R i rest d)
    (h' : Deriving t R i rest' d')
    (hgrow : ∀ v, d.marks.markOf v ≠ .clear → d'.marks.markOf v ≠ .clear) :
    d.pending ≤ d'.pending := by
  have hle : (t.lits.toList.take i).countP (isOpen t d.marks) ≤
      (t.lits.toList.take i).countP (isOpen t d'.marks) := by
    refine List.countP_mono_left fun b _ hb => ?_
    obtain ⟨hbl, hbm⟩ := isOpen_eq_true.1 hb
    exact isOpen_eq_true.2 ⟨hbl, hgrow _ hbm⟩
  rw [h.pending, h'.pending]
  omega

/-- When no literal of the current level is left, the derivation is complete. -/
theorem deriving_of_nothing_pending (h : Deriving t R i rest d) (hpos : d.pending ≤ 0) :
    Deriving t R 0 rest d := by
  have hzero : ∀ m ∈ t.lits.toList.take i, ¬ isOpen t d.marks m = true := by
    have := h.pending
    exact List.countP_eq_zero.1 (by omega)
  refine { h with marked := fun v hvm => ?_, pending := ?_, holds := fun w hw => ?_ }
  · rcases h.marked v hvm with hlit | ⟨m, hm, rfl, hlev⟩
    · exact Or.inl hlit
    · exact absurd (isOpen_eq_true.2 ⟨hlev, hvm⟩) (hzero m hm)
  · have := h.pending
    simp only [List.take_zero, List.countP_nil]
    omega
  · rcases h.holds w hw with hlit | ⟨m, hm, hmo, -⟩ | hrest
    · exact Or.inl hlit
    · exact absurd hmo (hzero m hm)
    · exact Or.inr (Or.inr hrest)

/-- When the derivation is complete, the marked variables are those of its literals. -/
theorem Deriving.marks_lits (h : Deriving t R 0 rest d) (v : Var) : d.marks.markOf v = .clear ∨
    d.marks.markOf v = .inClause ∧ v ∈ d.lits.toList.map Lit.var := by
  refine (h.marks v).imp_right fun hv => ⟨hv, ?_⟩
  rcases h.marked v (by rw [hv]; decide) with ⟨m, hm, rfl⟩ | ⟨m, hm, -⟩
  · exact List.mem_map_of_mem hm
  · simp at hm

/-- The walk ends with a literal of the current level that is true, and with literals of lower
levels. The complement of the one and the others cannot all be false. -/
theorem derived_of_resolve {n : Network} (hs : n.Justified) (hr : n.Sound R) :
    ∀ {i : Nat} {d d' : Derivation} {l : Lit}, Deriving n.trail R i [] d → 0 < d.pending →
      d.resolve n.store n.trail i = .ok (l, d') →
      l ∈ n.trail ∧ n.trail.levelOf l.var = n.trail.level ∧ Deriving n.trail R 0 [l.neg] d' := by
  intro i
  induction i with
  | zero =>
      intro d d' l _ _ h
      simp [resolve, throw_ne_ok] at h
  | succ i ih =>
      intro d d' l hd hpos h
      simp only [resolve, bind_eq_ok, Trail.litAt_eq_ok] at h
      obtain ⟨m, hi, x, hx, h⟩ := h
      have hmark := Marks.of_eq_ok hx
      split at h
      next hclear => exact ih (deriving_of_clear hd hi (hmark.trans hclear)) hpos h
      next hmarked =>
          simp only [bind_eq_ok] at h
          obtain ⟨marks, hset, h⟩ := h
          obtain ⟨hlev, hd₁⟩ :=
            deriving_of_marked hs.trail hd hpos hi (by rwa [hmark]) hset
          split at h
          -- nothing else is pending, so this literal is the implication point
          next hdone =>
              simp only [pure_eq_ok, Prod.mk.injEq] at h
              obtain ⟨rfl, rfl⟩ := h
              exact ⟨List.mem_of_getElem? hi, hlev, deriving_of_nothing_pending hd₁ hdone⟩
          -- the antecedents of the literal take its place
          next hleft =>
              simp only [bind_eq_ok, Trail.cell_eq_ok] at h
              obtain ⟨cell, ⟨-, rfl⟩, h⟩ := h
              split at h
              next => simp [throw_ne_ok] at h
              next a hreason =>
                  simp only [bind_eq_ok] at h
                  obtain ⟨d₂, htake, h⟩ := h
                  obtain ⟨hd₂, hgrow, -⟩ := deriving_of_takeConstraint hs.trail hr.ground
                    (fun c as hc has => by
                      obtain ⟨hneg, himp⟩ := Network.implied_of_reason hs hr hi hreason hc has
                      exact ⟨hd₁.replace himp, hneg⟩) htake
                  have hle := hd₁.pending_le hd₂ hgrow
                  exact ih hd₂ (Int.lt_of_lt_of_le (Int.not_le.1 hleft) hle) h

end Derivation

end CardSat
