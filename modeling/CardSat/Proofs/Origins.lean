import CardSat.Proofs.Engine.Founded
import CardSat.Proofs.Ledger.Demands
import CardSat.Proofs.Ledger.Since
import CardSat.Proofs.List

set_option autoImplicit false

/-! # What learnt clauses and facts follow from

While only live snapshots are loaded, every stored constraint and every fact follows from the given
constraints and the facts that came with demands, whether the solver is `ok` or not
(`derived_of_marked`). Facts are told apart by marks that are kept beside the solver (`Marked`).

This fails when a snapshot is loaded that is not live, because an older one was loaded after it was
taken: the serials of the learnt clauses that were removed then are given to other clauses, which
may follow from constraints that this snapshot does not have (`underived_after_stale_load`).

A solver that is not `ok` is included, since it may be brought back by loading. Its engine is not at
rest then, and may be in the middle of what made it fail. What it has stored still follows from the
basis, because a call stops as soon as the constraints are found to contradict each other.
-/

namespace CardSat

open Lit (x0 x1 x2)

/-- The number of facts. -/
def Solver.factCount (s : Solver) : Nat := s.engine.database.units.size

/-- A run with a mark for every fact, oldest first: whether it came with a demand. The facts that
a search notes are learnt. -/
inductive Marked (rules : Rules) : Solver → Ledger → List Bool → Prop
  | new {settings : Settings} {s : Solver} (h : Solver.new settings = .ok s) :
      Marked rules s {} []
  | call {s s' : Solver} {L L' : Ledger} {marks : List Bool} (hm : Marked rules s L marks)
      (h : Call rules s L s' L') :
      Marked rules s' L' (marks ++ List.replicate (s'.factCount - s.factCount)
        (decide (L.added.length < L'.added.length)))
  | load {s s' : Solver} {L : Ledger} {marks : List Bool} {snapshot : Snapshot}
      {added : List Demand} {younger older : List (Snapshot × List Demand)}
      (hm : Marked rules s L marks) (hsaved : L.saved = younger ++ (snapshot, added) :: older)
      (h : s.load snapshot = .ok s') :
      Marked rules s' ⟨added, (snapshot, added) :: older, False⟩ (marks.take snapshot.units)

variable {rules : Rules} {s s' : Solver} {L L' : Ledger} {marks : List Bool}

theorem run_of_marked (h : Marked rules s L marks) : Run rules s L := by
  induction h with
  | new h => exact .new h
  | call _ h ih => exact ih.call h
  | load _ hsaved h ih => exact ih.load hsaved h

/-- Every run has its marks. -/
theorem marked_of_run (h : Run rules s L) : ∃ marks, Marked rules s L marks := by
  induction h with
  | new h => exact ⟨_, .new h⟩
  | call _ h ih =>
      obtain ⟨marks, hm⟩ := ih
      exact ⟨_, hm.call h⟩
  | load _ hsaved h ih =>
      obtain ⟨marks, hm⟩ := ih
      exact ⟨_, hm.load hsaved h⟩

/-! ## Calls -/

theorem Engine.TakesIn.saturated {good : Prop} {e e' : Engine} (h : e.TakesIn good e')
    (hf : e.Fit e.Problem) : e'.Fit e'.Problem := by
  induction h with
  | refl => exact hf
  | newVar _ h =>
      have hn := Engine.newVar_of_newVar hf h
      exact hn.fit.anti hn.evolves.problem
  | adds _ h => exact h.saturated
  | report event _ =>
      have hr := Engine.reaches_of_report hf event
      exact hr.fit.anti hr.evolves.problem
  | trans _ _ ih ih' => exact ih' (ih hf)

/-- A call that brings no demand only finds out what holds anyway. -/
theorem fit_of_call (hv : Valid rules s L) (hf : s.engine.Fit s.engine.Problem)
    (h : Call rules s L s' L') (hadded : L'.added.length ≤ L.added.length) :
    s'.engine.Fit s.engine.Problem := by
  cases h with
  | newVar negated decision _ h =>
      obtain ⟨_, he, rfl⟩ := Solver.newVar_eq_ok.1 h
      exact (Engine.newVar_of_newVar hf he).fit
  | add d _ _ h => exact absurd hadded (Nat.not_succ_le_self _)
  | preprocess h =>
      rcases Solver.whileOk_eq_ok.1 h with ⟨hok, e, he, rfl⟩ | ⟨-, -, rfl⟩
      · exact (Engine.adds_of_preprocess (hv.resting hok) he).fit.anti fun w hw => ⟨hw, trivial⟩
      · exact hf
  | solve budget assumptions handler h _ =>
      rcases returns_solve h with ⟨-, -, rfl⟩ | ⟨-, ⟨_, _, hsearch⟩, -⟩
      · exact hf
      · have hw : False → s.engine.Watching := False.elim
        exact (Engine.concluded_of_search hf hw hsearch).1.fit
  | save h =>
      obtain ⟨-, -, rfl⟩ := Solver.save_eq_ok.1 h
      exact (Engine.reaches_of_report hf _).fit

theorem saturated_of_call (hv : Valid rules s L) (hf : s.engine.Fit s.engine.Problem)
    (h : Call rules s L s' L') : s'.engine.Fit s'.engine.Problem := by
  by_cases hadded : L'.added.length ≤ L.added.length
  · exact (fit_of_call hv hf h hadded).anti (evolves_of_call hv h).problem
  · cases h with
    | add d hlength hplain h => exact (takesIn_of_demand hv hlength hplain h).saturated hf
    | newVar => exact absurd (Nat.le_refl _) hadded
    | preprocess => exact absurd (Nat.le_refl _) hadded
    | solve => exact absurd (Nat.le_refl _) hadded
    | save => exact absurd (Nat.le_refl _) hadded

/-! ## Runs -/

theorem founded_of_new {settings : Settings} (h : Solver.new settings = .ok s) :
    s.engine.Founded [] [] := by
  simp only [Solver.new, bind_eq_ok, pure_eq_ok] at h
  obtain ⟨e, he, rfl⟩ := h
  have hr : e.Resting True := (Engine.resting_of_empty he).1
  simp only [Engine.empty, bind_eq_ok, pure_eq_ok] at he
  obtain ⟨d, -, rfl⟩ := he
  exact ⟨rfl, hr.fit, fun _ _ l hl => absurd hl List.not_mem_nil, by simp, by simp⟩

theorem founded_of_call (hv : Valid rules s L) (hi : s.engine.settings.incremental = true)
    (hf : s.engine.Founded marks (L.saved.map Prod.fst)) (h : Call rules s L s' L') :
    s'.engine.Founded (marks ++ List.replicate (s'.factCount - s.factCount)
      (decide (L.added.length < L'.added.length))) (L'.saved.map Prod.fst) := by
  have he := evolves_of_call hv h
  obtain ⟨extra, hextra⟩ := (he.grown hi).units
  have hcount : s'.factCount - s.factCount = extra.length := by
    rw [Solver.factCount, Solver.factCount, ← Array.length_toList, ← Array.length_toList, ← hextra,
      List.length_append, Nat.add_sub_cancel_left]
  -- a call that takes a snapshot leaves the engine to the snapshot as it is
  have hf' : s.engine.Founded marks (L'.saved.map Prod.fst) := by
    cases h with
    | newVar => exact hf
    | add => exact hf
    | preprocess => exact hf
    | solve => exact hf
    | save h =>
        obtain ⟨-, hsnap, -⟩ := Solver.save_eq_ok.1 h
        exact hf.save hi hsnap
  refine hf'.grown hi he (saturated_of_call hv hf.fit h) hextra.symm
    (by rw [List.length_replicate, hcount]) fun w hw hmarked l hl => ?_
  by_cases hadded : L.added.length < L'.added.length
  · refine hmarked l ?_
    rw [decide_eq_true hadded, hcount]
    exact mem_zip_replicate true hl
  · have hfit := fit_of_call hv hf.fit h (Nat.not_lt.1 hadded)
    exact (hfit.problem hw).units l (hextra ▸ List.mem_append_right _ hl)

theorem founded_of_marked (h : Marked rules s L marks)
    (hi : s.engine.settings.incremental = true) :
    s.engine.Founded marks (L.saved.map Prod.fst) := by
  induction h with
  | new h => exact founded_of_new h
  | call hm h ih =>
      have hv := valid_of_run (run_of_marked hm)
      have hi' := (evolves_of_call hv h).settings ▸ hi
      exact founded_of_call hv hi' (ih hi') h
  | @load s₁ s₂ L₁ marks snapshot added younger older hm hsaved h ih =>
      have hv := valid_of_run (run_of_marked hm)
      have holder := older_of_live hv.older hsaved
      obtain ⟨hi₁, replayed, e, hroll, rfl⟩ := Solver.load_eq_ok.1 h
      have hlive : ∀ p ∈ (snapshot, added) :: older, p ∈ L₁.saved := fun p hp =>
        hsaved ▸ List.mem_append_right younger hp
      have hs : snapshot ∈ L₁.saved.map Prod.fst :=
        List.mem_map_of_mem (hlive (snapshot, added) List.mem_cons_self)
      have hsub : ∀ q ∈ ((snapshot, added) :: older).map Prod.fst, q ∈ L₁.saved.map Prod.fst :=
        fun q hq => by
          obtain ⟨p, hp, rfl⟩ := List.mem_map.1 hq
          exact List.mem_map_of_mem (hlive p hp)
      have hold : ∀ q ∈ ((snapshot, added) :: older).map Prod.fst, q.Older snapshot :=
        fun q hq => by
          obtain ⟨p, hp, rfl⟩ := List.mem_map.1 hq
          exact holder p hp
      obtain ⟨hfounded, hie⟩ := (ih hi₁).rollback hi₁ hs hsub hold hroll
      have hr := Engine.reaches_of_report hfounded.fit
        (.loaded snapshot (snapshot.ok && replayed))
      exact hfounded.same hie hr.evolves (hr.fit.anti hr.evolves.problem) rfl

/-- In the incremental mode, and as long as only live snapshots are loaded, every stored constraint
and every fact follows from the given constraints and the facts that came with demands. -/
theorem derived_of_marked (hm : Marked rules s L marks)
    (hi : s.engine.settings.incremental = true) :
    marks.length = s.factCount ∧ ∀ w : World,
      (∀ h ∈ s.engine.database.given.toList, ∀ c, s.engine.store.get? h = some c →
        c.holds w = true) →
      (∀ l, (l, true) ∈ s.engine.database.units.toList.zip marks → l.holds w = true) →
      (∀ h c, s.engine.store.get? h = some c → c.holds w = true) ∧
        ∀ l ∈ s.engine.database.units.toList, l.holds w = true := by
  have hf := founded_of_marked hm hi
  refine ⟨hf.length, fun w hgiven hadded => ?_⟩
  have hproblem := hf.problem hi (hf.basis hgiven hadded)
  exact ⟨hf.fit.sound.stored w hproblem, hproblem.units⟩

/-- Searches under an assumption, takes a snapshot and loads it. -/
def Solver.attemptAndReload (s : Solver) (l : Lit) :
    Checked (Solver × Solver × Snapshot × Solver) := do
  let (_, s₁) ← s.attempt [l] Handler.none ()
  let (snapshot, s₂) ← s₁.save
  return (s₁, s₂, snapshot, ← s₂.load snapshot)

/-- A fact that was learnt before a snapshot was taken is there after the snapshot is loaded, and it
follows from the given constraints. -/
theorem derived_learnt_fact :
    ∃ s L marks, Marked {} s L marks ∧ s.engine.settings.incremental = true ∧
      s.engine.database.units.toList.zip marks = [(x0, false)] ∧
      ∀ w : World, (∀ h ∈ s.engine.database.given.toList, ∀ c, s.engine.store.get? h = some c →
        c.holds w = true) → x0.holds w = true := by
  have hpass : ((Solver.ofDemands 2 [.clause [x0, x1], .clause [x0, x1.neg]] >>= fun s =>
      s.attemptAndReload x0.neg >>= fun x => return (s, x)).toOption.any fun x =>
        x.1.engine.settings.incremental && x.1.factCount == 0 && x.2.1.factCount == 1 &&
          x.2.2.1.factCount == 1 && x.2.2.2.1.units == 1 &&
          x.2.2.2.2.engine.database.units.toList == [x0] &&
          x.2.2.2.2.engine.settings.incremental) = true := by
    simp (disch := decide) only [Solver.ofDemands, Solver.attemptAndReload, Solver.addDemands,
      Solver.demand, Solver.addClause, Engine.addClause, Engine.addReduced,
      Lit.sortDistinct_of_pairwise]
    decide +kernel
  obtain ⟨s, ⟨s', s₁, s₂, snapshot, s₃⟩, hrun, h, htest⟩ :=
    exists_run_of_test hpass (by decide) (by decide)
  simp only [Solver.attemptAndReload, bind_eq_ok, pure_eq_ok, Prod.mk.injEq] at h
  obtain ⟨_, ⟨⟨a, s₁⟩, hsolve, ⟨snapshot, s₂⟩, hsave, s₃, hload, rfl⟩, rfl, rfl, rfl, rfl, rfl⟩ := h
  simp only [Bool.and_eq_true, beq_iff_eq] at htest
  obtain ⟨⟨⟨⟨⟨⟨hi₀, hnone⟩, hone⟩, hone₂⟩, hunits⟩, hfacts⟩, hi⟩ := htest
  obtain ⟨st', hreturns⟩ := returns_of_attempt hsolve
  obtain ⟨marks, hm⟩ := marked_of_run (hrun {})
  obtain rfl : marks = [] :=
    List.eq_nil_of_length_eq_zero ((founded_of_marked hm hi₀).length.trans hnone)
  -- the search marks its fact as learnt, and the load keeps the mark
  obtain ⟨L₁, hm₁⟩ : ∃ L₁, Marked {} s₁ L₁ [false] := by
    have hm₁ := hm.call (.solve {} [x0.neg] Handler.none hreturns (by simp))
    rw [hnone, hone] at hm₁
    exact ⟨_, by simpa using hm₁⟩
  obtain ⟨L₃, hm₃⟩ : ∃ L₃, Marked {} s₃ L₃ [false] := by
    have hm₃ := (hm₁.call (.save hsave)).load (List.nil_append _).symm hload
    rw [hone, hone₂, hunits] at hm₃
    exact ⟨_, by simpa using hm₃⟩
  have hzip : s₃.engine.database.units.toList.zip [false] = [(x0, false)] := by
    rw [hfacts]
    rfl
  obtain ⟨-, hderived⟩ := derived_of_marked hm₃ hi
  refine ⟨s₃, L₃, [false], hm₃, hi, hzip, fun w hgiven => ?_⟩
  refine (hderived w hgiven fun l hl => ?_).2 x0 (by simp [hfacts])
  rw [hzip] at hl
  simp at hl

/-- Takes a snapshot, learns the clause of `x0` and `x1` and takes another snapshot. -/
def Solver.saveAndLearn (s : Solver) : Checked (Snapshot × Solver × Snapshot × Solver) := do
  let (old, s) ← s.save
  let s ← Solver.addDemands [.clause [x0, x1, x2], .clause [x0, x1, x2.neg]] s
  let (_, s) ← s.attempt [x0.neg, x1.neg] Handler.none ()
  let (snapshot, s') ← s.save
  return (old, s, snapshot, s')

/-- Learns that `x0` and `x1` exclude each other. -/
def Solver.learnAnother (s : Solver) : Checked Solver := do
  let s ← Solver.addDemands [.clause [x0, x1, x2], .clause [x0, x1, x2.neg],
    .clause [x0.neg, x1.neg, x2], .clause [x0.neg, x1.neg, x2.neg]] s
  let (_, s) ← s.attempt [x0, x1] Handler.none ()
  return s

/-- A snapshot is taken after a clause was learnt, an older one is loaded, and another clause is
learnt under the same serial. When the snapshot is loaded all the same, this clause is kept, and
does not follow from the constraints that were there. -/
theorem underived_after_stale_load :
    ∃ s s₁ s₂ s₃ s₄ L L₃ old snapshot h c, ∃ w : World, Run {} s L ∧ L.saved = [(old, [])] ∧
      s.save = .ok (snapshot, s₁) ∧ s₁.load old = .ok s₂ ∧
      Calls {} s₂ { saved := [(old, [])] } s₃ L₃ ∧ s₃.load snapshot = .ok s₄ ∧
      (∀ h ∈ s₄.engine.database.given.toList, ∀ c, s₄.engine.store.get? h = some c →
        c.holds w = true) ∧
      (∀ l ∈ s₄.engine.database.units.toList, l.holds w = true) ∧
      s₄.engine.store.get? h = some c ∧ c.isLearnt = true ∧ c.holds w = false := by
  have hpass : ((Solver.ofDemands 3 [] >>= fun s => s.saveAndLearn >>= fun x =>
      x.2.2.2.load x.1 >>= fun s => s.learnAnother >>= fun s =>
      s.load x.2.2.1).toOption.any fun s =>
        (s.engine.database.given.toList.all fun h =>
          (s.engine.store.get? h).all fun c => c.holds fun _ => true) &&
        (s.engine.database.units.toList.all fun l => l.holds fun _ => true) &&
        s.engine.database.learnts.toList.any fun h =>
          (s.engine.store.get? h).any fun c => c.isLearnt && !c.holds fun _ => true) = true := by
    simp (disch := decide) only [Solver.ofDemands, Solver.saveAndLearn, Solver.learnAnother,
      Solver.addDemands, Solver.demand, Solver.addClause, Engine.addClause, Engine.addReduced,
      Lit.sortDistinct_of_pairwise]
    decide +kernel
  obtain ⟨s₀, s₈, hrun, h, htest⟩ := exists_run_of_test hpass (by simp) (by simp)
  simp only [Solver.saveAndLearn, Solver.learnAnother, bind_eq_ok, pure_eq_ok] at h
  obtain ⟨_, ⟨⟨old, s₁⟩, hsave₁, s₂, hadd₂, ⟨a₃, s₃⟩, hsolve₃, ⟨snapshot, s₄⟩, hsave₄, rfl⟩, s₅,
    hload₅, s₇, ⟨s₆, hadd₆, ⟨a₇, s₇⟩, hsolve₇, rfl⟩, hload₈⟩ := h
  simp only [Bool.and_eq_true, List.all_eq_true, Option.all_eq_true, List.any_eq_true,
    Option.any_eq_true, Bool.not_eq_true'] at htest
  obtain ⟨⟨hgiven, hfacts⟩, h, -, c, hc, hlearnt, hfalse⟩ := htest
  obtain ⟨u₃, hreturns₃⟩ := returns_of_attempt hsolve₃
  obtain ⟨u₇, hreturns₇⟩ := returns_of_attempt hsolve₇
  -- the calls up to the stale load are a run
  have hrun₃ := (run_of_calls ((hrun {}).call (.save hsave₁))
    (calls_of_addDemands .refl (by decide) (by decide) hadd₂)).call
    (.solve {} [x0.neg, x1.neg] Handler.none hreturns₃ (by simp))
  have hcalls : Calls {} s₅ { saved := [(old, [])] } s₇ _ :=
    (calls_of_addDemands .refl (by decide) (by decide) hadd₆).call
      (.solve {} [x0, x1] Handler.none hreturns₇ (by simp))
  exact ⟨s₃, s₄, s₅, s₇, s₈, _, _, old, snapshot, h, c, fun _ => true, hrun₃, rfl, hsave₄, hload₅,
    hcalls, hload₈, hgiven, hfacts, hc, hlearnt, hfalse⟩

end CardSat
