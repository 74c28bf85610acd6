import CardSat.Proofs.Analysis.Minimising
import CardSat.Proofs.Reasons

set_option autoImplicit false

/-! # What a conflict teaches a search

The lesson of a conflict above the ground level is a clause that follows from the problem and is
false, with one literal of the current level, the first one. After the search has gone back to the
level of the second literal, all literals but the first are still false (`Engine.Teaches`). This
holds of every conflict in a run without canceled searches, whichever redundant literals are left out
(`teaches_of_conflict`).

Which these are is said by `Dispensable`; the deep mode finds them all (`minimise_of_derive`). An
analysis states in its lesson what its mode keeps of the derived clause (`states_of_analyze`).
-/

namespace CardSat

open Engine

variable {s : Solver} {L : Ledger} {e e' : Engine} {h : Handle}

/-! ## A search with two assumptions -/

open Lit (x0 x1 x2 x3 x4)

/-- The first assumption implies two more literals, one through the other, and these contradict the
second assumption. -/
def Demand.chain : List Demand :=
  [.clause [x0.neg, x1], .clause [x1.neg, x2], .clause [x0.neg, x2.neg, x3.neg, x4],
    .clause [x0.neg, x2.neg, x3.neg, x4.neg]]

/-- A search for a model of `Demand.chain` comes to a conflict on its second level. From three
literals of the clause derived there the deep mode leaves out one that the basic mode keeps. -/
theorem exists_conflict_of_chain :
    ∃ s e e' h last d never basic deep, Run { uncanceled := true } s
        { added := Demand.chain.reverse } ∧ s.Searches e ∧
      e.propagate = .ok (some h, e') ∧ e'.trail.level = 2 ∧
      e'.analysis.derive e'.store e'.trail h = .ok (last, d) ∧
      Analysis.minimise .never e'.store e'.trail d.marks last.neg d.lits.toList = .ok never ∧
      Analysis.minimise .basic e'.store e'.trail d.marks last.neg d.lits.toList = .ok basic ∧
      Analysis.minimise .deep e'.store e'.trail d.marks last.neg d.lits.toList = .ok deep ∧
      never.1 = #[x3.neg, x0.neg, x2.neg] ∧ basic.1 = #[x3.neg, x0.neg, x2.neg] ∧
      deep.1 = #[x3.neg, x0.neg] := by
  have hpass : ((Solver.ofDemands 5 Demand.chain >>= fun s =>
      s.engine.opened.firstDecision #[x0, x3] >>= fun x => x.1.firstDecision #[x0, x3] >>= fun y =>
      present y.2.1 >>= fun h => y.2.2.analysis.derive y.2.2.store y.2.2.trail h >>= fun z =>
      Analysis.minimise .never y.2.2.store y.2.2.trail z.2.marks z.1.neg z.2.lits.toList >>= fun a =>
      Analysis.minimise .basic y.2.2.store y.2.2.trail z.2.marks z.1.neg z.2.lits.toList >>= fun b =>
      Analysis.minimise .deep y.2.2.store y.2.2.trail z.2.marks z.1.neg z.2.lits.toList >>= fun c =>
      return (s, x, y, h, z, a, b, c)).toOption.any fun r =>
        r.1.ok && r.2.2.1.2.2.trail.level == 2 && r.2.2.2.2.2.1.1 == #[x3.neg, x0.neg, x2.neg] &&
          r.2.2.2.2.2.2.1.1 == #[x3.neg, x0.neg, x2.neg] &&
          r.2.2.2.2.2.2.2.1 == #[x3.neg, x0.neg]) = true := by
    simp (disch := decide) only [Demand.chain, Solver.ofDemands, Solver.addDemands, Solver.demand,
      Solver.addClause, Engine.addClause, Engine.addReduced, Lit.sortDistinct_of_pairwise]
    decide +kernel
  obtain ⟨s, r, hrun, hr, htest⟩ := exists_run_of_test hpass (by decide) (by decide)
  simp only [bind_eq_ok, pure_eq_ok, present_eq_ok] at hr
  obtain ⟨⟨e₁, f₁, e₁'⟩, hfirst, ⟨e, f, e'⟩, hnext, h, hh, ⟨last, d⟩, hderive, never, hnever, basic,
    hbasic, deep, hdeep, rfl⟩ := hr
  obtain rfl : f = some h := hh
  simp only [Bool.and_eq_true, beq_iff_eq] at htest
  obtain ⟨⟨⟨⟨hok, hlevel⟩, hnever'⟩, hbasic'⟩, hdeep'⟩ := htest
  let task : Task := s.engine.order s.settings.restart {} [x0, x3]
  have hround₁ : Round task s.engine.opened e₁ := (round_of_firstDecision hfirst).1
  obtain ⟨hround, hprop⟩ := round_of_nextDecision hround₁ hnext
  exact ⟨s, e, e', h, last, d, never, basic, deep, hrun _, ⟨hok, {}, [x0, x3], hround⟩, hprop,
    hlevel, hderive, hnever, hbasic, hdeep, hnever', hbasic', hdeep'⟩

/-! ## Lessons -/

/-- The clause that a lesson states, and the level at which it forces its first literal. -/
inductive Lesson.States : Lesson → Nat → List Lit → Prop
  | unit (l : Lit) : States (.unit l) 0 [l]
  | clause {level : Nat} {lits : Array Lit} (htwo : 2 ≤ lits.size) :
      States (.clause level lits) level lits.toList

/-- The lesson of a clause that is not empty states this clause, its other literals after the first
one in another order. -/
theorem exists_states_of_lesson {t : Trail} {first : Lit} {rest : List Lit} {ls : Array Lit}
    {lesson : Lesson} (hls : ls.toList = first :: rest) (h : Analysis.lesson t ls = .ok lesson) :
    ∃ level lits, lesson.States level (first :: lits) ∧ lits.Perm rest := by
  have hsize : ls.size = rest.length + 1 := by rw [← Array.length_toList, hls, List.length_cons]
  simp only [Analysis.lesson] at h
  split at h
  next hone =>
      simp only [bind_eq_ok, pure_eq_ok, fetch_eq_ok] at h
      obtain ⟨l, hl, rfl⟩ := h
      obtain rfl : rest = [] := List.eq_nil_of_length_eq_zero (by omega)
      rw [← Array.getElem?_toList, hls] at hl
      obtain rfl : first = l := by simpa using hl
      exact ⟨0, [], .unit first, .refl _⟩
  next hmore =>
      simp only [bind_eq_ok, pure_eq_ok] at h
      obtain ⟨⟨i, level⟩, hhigh, rfl⟩ := h
      obtain ⟨hi, ⟨l, hl, -⟩, -⟩ := Analysis.highestLevel_eq_ok hhigh
      have hilt : i < ls.size := by simpa using (List.getElem?_eq_some_iff.1 hl).1
      obtain ⟨⟨lits, hlits, hperm⟩, -⟩ := Analysis.swapped_second hls (by omega) hi hilt
      exact ⟨level, lits, hlits ▸ .clause (by rw [Array.size_swapIfInBounds]; omega), hperm⟩

/-- A clause that follows from the problem and is false. Its first literal is the only one of the
current level, its second one belongs to `level`, and none to a level above or to the ground level. -/
structure Engine.Teaches (e : Engine) (level : Nat) (lits : List Lit) : Prop where
  entailed : ∀ w, e.Problem w → w.clauseHolds lits = true
  falsified : ∀ l ∈ lits, e.trail.truth l = .no
  distinct : (lits.map Lit.var).Nodup
  first : ∃ l, lits.head? = some l ∧ e.trail.levelOf l.var = e.trail.level
  tail : ∀ l ∈ lits.tail, 0 < e.trail.levelOf l.var ∧ e.trail.levelOf l.var ≤ level
  second : ∀ l, lits[1]? = some l → e.trail.levelOf l.var = level
  below : level < e.trail.level

/-- A trail on which the first literal of a clause has no value, and the others are false. -/
def Trail.Awaits (t : Trail) (lits : List Lit) : Prop :=
  ∃ l rest, lits = l :: rest ∧ t.truth l = .unset ∧ ∀ m ∈ rest, t.truth m = .no

/-- A right lesson states a clause that an engine teaches. -/
theorem exists_states_of_right {R : World → Prop} {lesson : Lesson} (hright : lesson.Right e.trail R)
    (hv : e.trail.Valid) (hlevel : 0 < e.trail.level) (hR : ∀ w, e.Problem w → R w) :
    ∃ level lits, lesson.States level lits ∧ e.Teaches level lits := by
  cases lesson with
  | unsatisfiable => exact absurd hright (Nat.pos_iff_ne_zero.1 hlevel)
  | unit l =>
      obtain ⟨-, hneg, hcur, hholds⟩ := hright
      refine ⟨0, [l], .unit l, ⟨fun w hw => ?_, ?_, by simp, ⟨l, rfl, hcur⟩, by simp, by simp, hlevel⟩⟩
      · rw [World.clauseHolds_iff]
        exact ⟨l, List.mem_singleton_self l, hholds w (hR w hw)⟩
      · simpa using (hv.truth_no l).2 hneg
  | clause level lits =>
      obtain ⟨ha, hholds⟩ := hright
      have htwo := ha.two_le
      rw [Array.length_toList] at htwo
      obtain ⟨l, hl, hneg, hcur⟩ := ha.first
      obtain ⟨rest, hrest⟩ := List.head?_eq_some_iff.1 hl
      obtain ⟨m, hm, hsecond⟩ := ha.second
      refine ⟨level, lits.toList, .clause htwo, ⟨fun w hw => hholds w (hR w hw), fun a ha' => ?_,
        ha.distinct, ⟨l, hl, hcur⟩, fun a ha' => (ha.tail a ha').2, fun a ha' => ?_, ha.below⟩⟩
      · have htail := ha.tail
        rw [hrest] at ha' htail
        rcases List.mem_cons.1 ha' with rfl | ha'
        · exact (hv.truth_no a).2 hneg
        · exact (hv.truth_no a).2 (htail a ha').1
      · rwa [← Option.some.inj (hm.symm.trans ha')]

/-- Where the trail has gone back to the level of the lesson, its clause awaits its first literal. -/
theorem Engine.Teaches.awaits {level : Nat} {lits : List Lit} (ht : e.Teaches level lits)
    (hv : e.trail.Valid) : (e.trail.rewind level).2.Awaits lits := by
  have hv' := Trail.valid_rewind hv level
  obtain ⟨l, hl, hcur⟩ := ht.first
  obtain ⟨rest, rfl⟩ := List.head?_eq_some_iff.1 hl
  have hbelow := ht.below
  refine ⟨l, rest, rfl, (hv'.truth_unset l).2 ⟨fun hm => ?_, fun hm => ?_⟩, fun m hm => ?_⟩
  · have := ((Trail.mem_rewind hv).1 hm).2
    omega
  · have := ((Trail.mem_rewind hv).1 hm).2
    rw [Lit.neg_var] at this
    omega
  · refine (hv'.truth_no m).2 ((Trail.mem_rewind hv).2 ⟨?_, (ht.tail m hm).2⟩)
    exact (hv.truth_no m).1 (ht.falsified m (List.mem_cons_of_mem l hm))

/-- Every conflict above the ground level in a run without canceled searches teaches a clause,
whichever literals are left out of it, and going back to its level is not refused. There the clause
awaits its first literal. -/
theorem teaches_of_conflict (hrun : Run { uncanceled := true } s L) (hs : s.Searches e)
    (hprop : e.propagate = .ok (some h, e')) (hlevel : 0 < e'.trail.level) (m : Minimisation) :
    ∃ lesson e₁ level lits,
      { e' with analysis := { e'.analysis with minimisation := m } }.analyze h =
        .ok (lesson, e₁) ∧
      lesson.States level lits ∧ e'.Teaches level lits ∧
      ∃ e₂, e₁.cancelUntil level = .ok e₂ ∧ e₂.trail.Awaits lits := by
  obtain ⟨hok, budget, as, hround⟩ := hs
  have hvalid := valid_of_run hrun
  have hr := hvalid.resting hok
  have hopened : Underway s.engine.Problem True as.toArray s.engine s.engine.opened :=
    .opened hr.fit (orderly_of_run hrun) hvalid.ground
      (fun _ => hr.watching (hvalid.uncanceled rfl)) _
  have hhalted := ((underway_of_round hopened hround).propagate hprop).2.2.2 h rfl
  have hf := hhalted.broken.reaches.fit
  -- the mode of minimisation is not looked at by any invariant
  let e'' : Engine := { e' with analysis := { e'.analysis with minimisation := m } }
  have hf'' : e''.Fit s.engine.Problem :=
    ⟨hf.sane, hf.sound, hf.units, hf.listed, hf.ready, hf.clean, hf.marked⟩
  have ho'' : e''.Orderly := hhalted.orderly.bookkeeping rfl ⟨rfl, rfl, rfl⟩
  have hconf : e''.network.Conflict h := hhalted.broken.conflict
  obtain ⟨⟨lesson, e₁⟩, hanalyze⟩ := succeeds_analyze hf'' ho'' hhalted.led hconf
  obtain ⟨hr₁, hright, -, hn₁⟩ := reaches_of_analyze hf'' hconf hanalyze
  obtain ⟨level, lits, hstates, hteaches⟩ := exists_states_of_right (e := e') hright hhalted.valid
    hlevel hhalted.broken.reaches.evolves.problem
  obtain ⟨e₂, hcancel⟩ :=
    succeeds_cancelUntil hr₁.fit (orderly_of_analyze hf'' ho'' hconf hanalyze) level
  refine ⟨lesson, e₁, level, lits, hanalyze, hstates, hteaches, e₂, hcancel, ?_⟩
  rw [trail_of_cancelUntil hcancel, trail, hn₁]
  exact hteaches.awaits hhalted.valid

/-- The conflict of a search with two assumptions teaches a clause, with its redundant literals left
out. -/
theorem teaches_of_chain :
    ∃ s e e' h lesson e₁ level lits, Run { uncanceled := true } s
        { added := Demand.chain.reverse } ∧ s.Searches e ∧
      e.propagate = .ok (some h, e') ∧ e'.trail.level = 2 ∧
      { e' with analysis := { e'.analysis with minimisation := .deep } }.analyze h =
        .ok (lesson, e₁) ∧
      lesson.States level lits ∧ e'.Teaches level lits ∧
      ∃ e₂, e₁.cancelUntil level = .ok e₂ ∧ e₂.trail.Awaits lits := by
  obtain ⟨s, e, e', h, -, -, -, -, -, hrun, hs, hprop, hlevel, -⟩ := exists_conflict_of_chain
  obtain ⟨lesson, e₁, level, lits, hteaches⟩ := teaches_of_conflict hrun hs hprop (by omega) .deep
  exact ⟨s, e, e', h, lesson, e₁, level, lits, hrun, hs, hprop, hlevel, hteaches⟩

/-! ## Redundant literals -/

namespace Analysis

variable {n : Network} {a : Analysis} {failed : Handle} {last : Lit} {d : Derivation}

open Classical in
/-- What a mode keeps of a clause: all of it, or all but what is dispensable, or something in
between. The first literal is always kept. -/
def Keeps (store : Store) (t : Trail) (first : Lit) (rest : List Lit) :
    Minimisation → List Lit → Prop
  | .never, kept => kept = rest
  | .basic, kept => kept.Sublist rest ∧
      (rest.filter fun l => ¬ Dispensable store t (first :: rest) l).Sublist kept
  | .deep, kept => kept = rest.filter fun l => ¬ Dispensable store t (first :: rest) l

/-- A derivation from a conflict is complete: what is left of it follows from the stored constraints
and the ground level, and the literal given with it is of the current level. -/
theorem derived_of_derive (hs : n.Justified) (hlevel : 0 < n.trail.level)
    (hconf : n.Conflict failed) (hclean : a.marks.Clean) (hmarks : a.marks.Covers n.trail.varCount)
    (h : a.derive n.store n.trail failed = .ok (last, d)) :
    last ∈ n.trail ∧ n.trail.levelOf last.neg.var = n.trail.level ∧
      Derivation.Deriving n.trail n.Admits 0 [last.neg] d ∧ d.marks.Covers n.trail.varCount := by
  simp only [derive, bind_eq_ok] at h
  obtain ⟨d₀, htake, hres⟩ := h
  obtain ⟨hd₀, hpending⟩ := deriving_of_conflict hs n.sound_admits hlevel hconf hclean htake
  obtain ⟨hlast, hlastlev, hd⟩ :=
    Derivation.derived_of_resolve hs n.sound_admits hd₀ hpending hres
  exact ⟨hlast, hlastlev, hd, Derivation.covers_of_resolve
    (Derivation.covers_of_takeConstraint hmarks htake) hres⟩

/-- Every mode keeps of a derived clause what it should, and what is kept follows from the stored
constraints and the ground level. -/
theorem keeps_of_derive (hs : n.Justified) (hlevel : 0 < n.trail.level)
    (hconf : n.Conflict failed) (hclean : a.marks.Clean) (hmarks : a.marks.Covers n.trail.varCount)
    (h : a.derive n.store n.trail failed = .ok (last, d)) (m : Minimisation) :
    ∃ ls marks kept,
      minimise m n.store n.trail d.marks last.neg d.lits.toList = .ok (ls, marks) ∧
      ls.toList = last.neg :: kept ∧ Keeps n.store n.trail last.neg d.lits.toList m kept ∧
      ∀ w, n.Admits w → w.clauseHolds ls.toList = true := by
  classical
  obtain ⟨hlast, hlastlev, hd, hcovers⟩ := derived_of_derive hs hlevel hconf hclean hmarks h
  have hrest : ∀ l ∈ d.lits.toList, l.neg ∈ n.trail := fun l hl => (hd.lits l hl).1
  have hfaithful : Probe.Faithful n.store n.trail (fun v => v ∈ d.lits.toList.map Lit.var)
      ⟨d.marks, []⟩ := faithful_of_deriving hd
  have hlast' : last.neg.neg ∈ n.trail := by rwa [Lit.neg_neg]
  obtain ⟨⟨ls, marks⟩, hmin⟩ := succeeds_minimise hs (m := m) hcovers hlast' hrest
  obtain ⟨-, kept, hls, hmini⟩ := minimised_of_minimise hd.marks_lits hmin
  refine ⟨ls, marks, kept, hmin, hls, ?_,
    fun w hw => hls ▸ clauseHolds_of_minimised hs n.sound_admits hd hmini hw⟩
  -- the deep mode finds exactly the dispensable literals
  have hfilter : d.lits.toList.filter (fun l =>
        ¬ Dispensable n.store n.trail (last.neg :: d.lits.toList) l) =
      d.lits.toList.filter fun l =>
        ¬ Explained n.store n.trail (fun v => v ∈ d.lits.toList.map Lit.var) l.var := by
    refine List.filter_congr fun l hl => ?_
    simp only [Network.dispensable_iff_explained hs hlastlev hrest (hrest l hl) (hd.lits l hl).2.2]
  cases m with
  | never => exact (List.cons.inj (hls.symm.trans (kept_of_never hmin))).2
  | basic =>
      have hkept := (List.cons.inj (hls.symm.trans (kept_of_basic hmin))).2
      refine ⟨hkept ▸ List.filter_sublist, ?_⟩
      rw [hfilter, hkept]
      -- a literal is explained if its antecedents belong to the clause
      refine List.monotone_filter_right _ fun l hl => ?_
      simp only [decide_eq_true_eq] at hl
      simp only [Bool.not_eq_true', decide_eq_false_iff_not]
      exact fun hdirect => hl (explained_of_directlyRedundant
        (fun v hv => ((hd.marks_lits v).resolve_left hv).2) hdirect)
  | deep =>
      exact (List.cons.inj (hls.symm.trans (kept_of_deep hfaithful
        (fun l hl => Nat.pos_iff_ne_zero.1 (hd.lits l hl).2.1) hmin))).2.trans hfilter.symm

/-- Where every level begins with its decision, the analysis of a conflict above the ground level
returns. Its lesson states the derived clause without the literals that the mode leaves out, and the
two tallies grow by the lengths of the clause before and after. -/
theorem states_of_analyze (hs : n.Justified) (hled : n.trail.Led) (hlevel : 0 < n.trail.level)
    (hconf : n.Conflict failed) (hclean : a.marks.Clean)
    (hmarks : a.marks.Covers n.trail.varCount) :
    ∃ last d x a' level lits kept, a.derive n.store n.trail failed = .ok (last, d) ∧
      a.analyze n.store n.trail failed = .ok (x, a') ∧
      x.lesson.States level (last.neg :: lits) ∧ lits.Perm kept ∧
      Keeps n.store n.trail last.neg d.lits.toList a.minimisation kept ∧
      a'.derivedLits = a.derivedLits + (d.lits.size + 1) ∧
      a'.learntLits = a.learntLits + (lits.length + 1) := by
  obtain ⟨x, a', hrun, -⟩ := returns_of_analyze hs hled hconf hclean hmarks
  have h := hrun
  rw [analyze_eq_derive hlevel] at h
  simp only [bind_eq_ok, pure_eq_ok, Prod.mk.injEq] at h
  obtain ⟨⟨last, d⟩, hderive, ⟨ls, marks⟩, hmin, lesson, hlesson, rfl, rfl⟩ := h
  -- what the analysis minimises is what the derivation has collected
  obtain ⟨_, _, kept, hmin', hls, hkeeps, -⟩ :=
    keeps_of_derive hs hlevel hconf hclean hmarks hderive a.minimisation
  obtain ⟨rfl, rfl⟩ := Prod.mk.inj (Except.ok.inj (hmin.symm.trans hmin'))
  obtain ⟨level, lits, hstates, hperm⟩ := exists_states_of_lesson hls hlesson
  have hcount : ls.size = lits.length + 1 := by
    rw [← Array.length_toList, hls, List.length_cons, hperm.length_eq]
  exact ⟨last, d, _, _, level, lits, kept, hderive, hrun, hstates, hperm, hkeeps, rfl,
    congrArg (a.learntLits + ·) hcount⟩

open Classical in
/-- Whatever marks earlier searches have left, a search decides whether a literal is dispensable.
The deep mode keeps of a derived clause its first literal and those that are not dispensable, the
basic mode at least these, and what is kept follows from the stored constraints and the ground
level. -/
theorem minimise_of_derive (hs : n.Justified) (hlevel : 0 < n.trail.level)
    (hconf : n.Conflict failed) (hclean : a.marks.Clean) (hmarks : a.marks.Covers n.trail.varCount)
    (h : a.derive n.store n.trail failed = .ok (last, d)) :
    (∀ p, Probe.Left n.store n.trail ⟨d.marks, []⟩ p → ∀ l : Lit, l.neg ∈ n.trail →
      0 < n.trail.levelOf l.var → n.trail.levelOf l.var < n.trail.level →
      ∃ b p', redundant n.store n.trail l p = .ok (b, p') ∧
        (b = true ↔ Dispensable n.store n.trail (last.neg :: d.lits.toList) l)) ∧
    ∃ never basic deep m₁ m₂ m₃,
      minimise .never n.store n.trail d.marks last.neg d.lits.toList = .ok (never, m₁) ∧
      minimise .basic n.store n.trail d.marks last.neg d.lits.toList = .ok (basic, m₂) ∧
      minimise .deep n.store n.trail d.marks last.neg d.lits.toList = .ok (deep, m₃) ∧
      never.toList = last.neg :: d.lits.toList ∧
      deep.toList = last.neg :: d.lits.toList.filter (fun l =>
        ¬ Dispensable n.store n.trail (last.neg :: d.lits.toList) l) ∧
      deep.toList.Sublist basic.toList ∧ basic.toList.Sublist never.toList ∧
      ∀ w, n.Admits w → w.clauseHolds never.toList = true ∧ w.clauseHolds basic.toList = true ∧
        w.clauseHolds deep.toList = true := by
  obtain ⟨-, hlastlev, hd, hcovers⟩ := derived_of_derive hs hlevel hconf hclean hmarks h
  have hrest : ∀ l ∈ d.lits.toList, l.neg ∈ n.trail := fun l hl => (hd.lits l hl).1
  constructor
  · intro p hp l hneg hpos hlt
    have hknown := hp.known hs ⟨hcovers, by simp⟩
    obtain ⟨b, p', hred, -⟩ := returns_of_redundant hs hneg hknown
    -- the search answers as `Explained` does, which for these literals is to be dispensable
    have hdecides := (faithful_of_redundantWithin _ _ _ _ _ (hp.faithful (faithful_of_deriving hd))
      (Nat.pos_iff_ne_zero.1 hpos) hred).2
    exact ⟨b, p', hred,
      hdecides.trans (Network.dispensable_iff_explained hs hlastlev hrest hneg hlt).symm⟩
  · obtain ⟨never, m₁, _, hnever, hls₁, rfl, hnever'⟩ :=
      keeps_of_derive hs hlevel hconf hclean hmarks h .never
    -- the basic mode keeps some literals between all of them and those that are not dispensable
    obtain ⟨basic, m₂, kept, hbasic, hls₂, ⟨hall, hsome⟩, hbasic'⟩ :=
      keeps_of_derive hs hlevel hconf hclean hmarks h .basic
    obtain ⟨deep, m₃, _, hdeep, hls₃, rfl, hdeep'⟩ :=
      keeps_of_derive hs hlevel hconf hclean hmarks h .deep
    refine ⟨never, basic, deep, m₁, m₂, m₃, hnever, hbasic, hdeep, hls₁, hls₃, ?_, ?_,
      fun w hw => ⟨hnever' w hw, hbasic' w hw, hdeep' w hw⟩⟩
    · rw [hls₂, hls₃]
      exact hsome.cons_cons _
    · rw [hls₁, hls₂]
      exact hall.cons_cons _

/-- Of the clause that a search with two assumptions derives, one literal is dispensable. The deep
mode leaves it out, and the basic mode does not. -/
theorem minimise_of_chain :
    ∃ s e e' h last d m₁ m₂ m₃, Run { uncanceled := true } s { added := Demand.chain.reverse } ∧
      s.Searches e ∧ e.propagate = .ok (some h, e') ∧
      e'.analysis.derive e'.store e'.trail h = .ok (last, d) ∧
      minimise .never e'.store e'.trail d.marks last.neg d.lits.toList =
        .ok (#[x3.neg, x0.neg, x2.neg], m₁) ∧
      minimise .basic e'.store e'.trail d.marks last.neg d.lits.toList =
        .ok (#[x3.neg, x0.neg, x2.neg], m₂) ∧
      minimise .deep e'.store e'.trail d.marks last.neg d.lits.toList =
        .ok (#[x3.neg, x0.neg], m₃) ∧
      Dispensable e'.store e'.trail [x3.neg, x0.neg, x2.neg] x2.neg ∧
      ¬ Dispensable e'.store e'.trail [x3.neg, x0.neg, x2.neg] x0.neg := by
  obtain ⟨s, e, e', h, last, d, ⟨never, m₁⟩, ⟨basic, m₂⟩, ⟨deep, m₃⟩, hrun, hs, hprop, hlevel, hderive,
    hnever, hbasic, hdeep, rfl, rfl, rfl⟩ := exists_conflict_of_chain
  obtain ⟨as, hu⟩ := hs.underway hrun
  have hhalted := (hu.propagate hprop).2.2.2 h rfl
  have hf := hhalted.broken.reaches.fit
  obtain ⟨-, never, basic, deep, _, _, _, hnever', -, hdeep', hall, hkept, -⟩ :=
    minimise_of_derive (n := e'.network) hf.sane.justified (hlevel ▸ Nat.two_pos)
      hhalted.broken.conflict hf.clean hf.marked hderive
  obtain ⟨rfl, -⟩ := Prod.mk.inj (Except.ok.inj (hnever'.symm.trans hnever))
  obtain ⟨rfl, -⟩ := Prod.mk.inj (Except.ok.inj (hdeep'.symm.trans hdeep))
  obtain ⟨hlast, hlits⟩ : last.neg = x3.neg ∧ d.lits.toList = [x0.neg, x2.neg] := by
    simpa [eq_comm] using hall
  rw [hlast, hlits] at hkept
  -- a literal is kept if it is not dispensable
  have hiff : ∀ l ∈ [x0.neg, x2.neg],
      l ∈ [x0.neg] ↔ ¬ Dispensable e'.store e'.trail [x3.neg, x0.neg, x2.neg] l := by
    intro l hl
    rw [(List.cons.inj hkept).2, List.mem_filter]
    simp only [decide_eq_true_eq]
    exact and_iff_right hl
  refine ⟨s, e, e', h, last, d, m₁, m₂, m₃, hrun, hs, hprop, hderive, hnever, hbasic, hdeep, ?_, ?_⟩
  · exact not_not.1 fun hno => absurd ((hiff x2.neg (by simp)).2 hno) (by decide)
  · exact (hiff x0.neg (by simp)).1 (by simp)

end Analysis

end CardSat
