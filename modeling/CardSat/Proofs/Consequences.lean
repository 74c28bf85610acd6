import CardSat.Proofs.Engine.Closure
import CardSat.Proofs.Recovery
import CardSat.Proofs.Trail.Reopening

set_option autoImplicit false

/-! # Reading what a decision implies

After a decision that succeeds, `newlyImplied` reports exactly what unit propagation derives from
the trail and the decision, and it does so only once. Taking the decision back leaves no trace on
the trail (`Reports`, `reports_of_decide`).

The state before has to be at its fixpoint: no constraint may force anything that is not on the
trail. It is so unless the last call has failed, or a search was canceled at a conflict of the
ground level.

## How the proof goes

The literals that are reported are those of the topmost level, which is the one that the decision
has opened, without the decision itself and as far as the caller asks for their variables. That they
are exactly what is derivable comes from the theorem on propagation (`Engine.closes_of_propagate`):
after a decision at a fixpoint the trail is the closure of the trail before and the decision. A
second reading finds the mark that the first has left (`Solver.setUnread`).
-/

namespace CardSat

open Lit (x0 x1 x2)

variable {rules : Rules} {s s' s₁ s₂ : Solver} {L : Ledger} {v : Var} {phase : Bool}

/-! ## Calls after a decision -/

/-- Reading, any number of times. -/
inductive Reads (s : Solver) : Solver → Prop
  | refl : Reads s s
  | read {s' : Solver} (h : Reads s s') (known : Var → Bool) : Reads s (s'.newlyImplied known).2

theorem Reads.engine_eq (h : Reads s s') : s'.engine = s.engine := by
  induction h with
  | refl => rfl
  | read _ _ ih => exact ih

/-- Any calls but those that leave something to be read: `start`, `decide` and `assertLearnt`. -/
inductive Interlude (rules : Rules) (s : Solver) : Solver → Prop
  | refl : Interlude rules s s
  | read {s' : Solver} (h : Interlude rules s s') (known : Var → Bool) :
      Interlude rules s (s'.newlyImplied known).2
  | undo {s' s'' : Solver} (h : Interlude rules s s') (v : Var) (hundo : s'.undo v = .ok s'') :
      Interlude rules s s''
  | call {s' s'' : Solver} {L L' : Ledger} (h : Interlude rules s s')
      (hcall : Call rules s' L s'' L') : Interlude rules s s''
  | load {s' s'' : Solver} {snapshot : Snapshot} (h : Interlude rules s s')
      (hload : s'.load snapshot = .ok s'') : Interlude rules s s''

/-- None of these calls leaves anything to be read. -/
theorem Interlude.unread (h : Interlude rules s s') (hs : s.pending.unread = false) :
    s'.pending.unread = false := by
  induction h with
  | refl => exact hs
  | read => rfl
  | undo _ _ hundo =>
    obtain ⟨_, _, -, rfl⟩ := Solver.undo_eq_ok hundo
    rfl
  | call _ hcall ih => exact pending_of_call hcall ▸ ih
  | load _ hload =>
    obtain ⟨-, _, _, -, rfl⟩ := Solver.load_eq_ok.1 hload
    rfl

theorem newlyImplied_of_not_unread (h : s.pending.unread = false) (known : Var → Bool) :
    (s.newlyImplied known).1 = [] := by
  simp [Solver.newlyImplied, h]

/-! ## The decision -/

/-- What is derived does not depend on the order of literals in the constraints. -/
theorem Store.Same.derivable_iff {store store' : Store} {facts : List Lit} {l : Lit}
    (h : store.Same store') : store'.Derivable facts l ↔ store.Derivable facts l := by
  constructor
  · intro hd
    refine hd.of_stored fun a c' hc' => ?_
    obtain ⟨c, hc, hsame⟩ := h.back a c' hc'
    exact ⟨a, c, hc, hsame.kind.symm, hsame.perm.symm⟩
  · intro hd
    refine hd.of_stored fun a c hc => ?_
    obtain ⟨c', hc', hsame⟩ := h.forth a c hc
    exact ⟨a, c', hc', hsame⟩

/-- Opening a level for a decision and propagating it: what is on the trail afterwards. -/
structure Decides (s : Solver) (d : Lit) (s₁ : Solver) : Prop where
  unread : s₁.pending.unread = true
  valid : s₁.engine.trail.Valid
  queued : s₁.engine.trail.Queued
  longer : s.engine.trail.openLevel.Extends s₁.engine.trail
  stored : s.engine.store.Same s₁.engine.store
  lits : ∃ later, s₁.engine.trail.lits.toList = s.engine.trail.lits.toList ++ d :: later
  closure : ∀ l, l ∈ s₁.engine.trail ↔
    s.engine.store.Derivable (s.engine.trail.lits.toList ++ [d]) l

theorem decides_of_decide {e₀ : Engine} {R : World → Prop} {good : Prop}
    (hs : e₀.Steered R good s.engine) (ho : s.engine.Orderly) (hidle : s.engine.Idle)
    (hw : s.engine.Watching) (h : s.decide v phase = .ok (true, s₁)) :
    Decides s (v.lit !phase) s₁ := by
  have hf := hs.reaches.fit
  simp only [Solver.decide, bind_eq_ok] at h
  obtain ⟨e₁, hdecide, hstep⟩ := h
  obtain ⟨hr₁, ha, hw₁⟩ := Engine.reaches_of_decideLit hf hidle hdecide
  rcases Solver.propagateStep_eq_ok.1 hstep with ⟨-, e₂, hprop, rfl⟩ | ⟨hno, -⟩
  · have hprop₁ : e₁.propagate = .ok (none, e₂) := hprop
    have hp : e₁.Propagated R True none e₂ :=
      Engine.propagated_of_propagate hr₁.fit (fun _ => hw₁ hw) hprop₁
    -- what is derived is exactly what is on the trail, because the state before was at its fixpoint
    obtain ⟨failed', e', hprop', hcloses⟩ := Engine.closes_of_propagate hr₁.fit (hw₁ hw)
      (Engine.orderly_of_decideLit ho hdecide)
    obtain ⟨rfl, rfl⟩ := Prod.mk.inj (Except.ok.inj (hprop'.symm.trans hprop₁))
    have hv := hf.sane.trail
    have hstore : e₁.store = s.engine.store := by
      obtain ⟨t, -, rfl⟩ := Engine.decideLit_eq_ok.1 hdecide
      rfl
    have hsame : s.engine.store.Same e'.store := hstore ▸ hcloses.stored
    refine ⟨rfl, hp.reaches.fit.sane.trail, hp.reaches.fit.sane.queued,
      (ha.extends (Trail.valid_openLevel hv)).trans hp.longer, hsame, ?_, fun l => ?_⟩
    · obtain ⟨later, hlater⟩ := hp.longer.lits
      refine ⟨later, ?_⟩
      rw [← hlater, ha.lits, List.append_assoc, List.singleton_append]
      rfl
    · have hfacts : e₁.trail.lits.toList = s.engine.trail.lits.toList ++ [v.lit !phase] := ha.lits
      rw [← hfacts, ← hsame.derivable_iff]
      exact hcloses.closure rfl l
  · cases hno

namespace Decides

variable {d : Lit}

theorem level_eq (h : Decides s d s₁) : s₁.engine.trail.level = s.engine.trail.level + 1 := by
  rw [h.longer.level_eq, Trail.level_openLevel]

/-- The current level begins with the decision. -/
theorem currentLevel_eq (h : Decides s d s₁) {later : List Lit}
    (hlits : s₁.engine.trail.lits.toList = s.engine.trail.lits.toList ++ d :: later) :
    s₁.engine.trail.currentLevel = d :: later := by
  have hstart : s₁.engine.trail.levelStart (s.engine.trail.level + 1) =
      s.engine.trail.lits.size := Trail.levelEnd_of_openLevel h.longer
  rw [Trail.currentLevel, h.level_eq, hstart, hlits, ← Array.length_toList]
  exact List.drop_left

/-- What is read are the literals after the decision, newest first. -/
theorem newlyImplied_eq (h : Decides s d s₁) {later : List Lit}
    (hlits : s₁.engine.trail.lits.toList = s.engine.trail.lits.toList ++ d :: later)
    (known : Var → Bool) :
    (s₁.newlyImplied known).1 = later.reverse.filter fun l => known l.var := by
  have hground : s₁.engine.trail.isGround = false := by
    rw [Trail.isGround, h.level_eq]
    simp
  simp only [Solver.newlyImplied, h.unread, hground, h.currentLevel_eq hlits, if_true,
    Bool.false_eq_true, if_false, List.drop_one, List.tail_cons]

theorem mem_later_iff (h : Decides s d s₁) (hv : s.engine.trail.Valid) {later : List Lit}
    (hlits : s₁.engine.trail.lits.toList = s.engine.trail.lits.toList ++ d :: later) {l : Lit} :
    l ∈ later ↔ l ∈ s₁.engine.trail ∧ s.engine.trail.truth l = .unset ∧ l ≠ d := by
  have hdistinct := h.valid.distinct
  rw [hlits, List.map_append, List.nodup_append, List.map_cons, List.nodup_cons] at hdistinct
  obtain ⟨-, ⟨hd, -⟩, hapart⟩ := hdistinct
  have hmem : l ∈ s₁.engine.trail ↔ l ∈ s.engine.trail ∨ l = d ∨ l ∈ later := by
    rw [Trail.mem_def, hlits, List.mem_append, List.mem_cons, Trail.mem_def]
  constructor
  · intro hl
    -- its variable does not occur in the part before the decision
    have hvar : ∀ m ∈ s.engine.trail, m.var ≠ l.var := fun m hm => by
      refine hapart m.var (List.mem_map_of_mem hm) l.var (List.mem_cons_of_mem _ ?_)
      exact List.mem_map_of_mem hl
    refine ⟨hmem.2 (.inr (.inr hl)), (hv.truth_unset l).2 ⟨fun hm => hvar l hm rfl,
      fun hm => hvar l.neg hm rfl⟩, ?_⟩
    rintro rfl
    exact hd (List.mem_map_of_mem hl)
  · rintro ⟨hl, hunset, hne⟩
    have hnot := ((hv.truth_unset l).1 hunset).1
    exact ((hmem.1 hl).resolve_left hnot).resolve_left hne

end Decides

/-! ## What is reported -/

/-- What a caller learns from the decision `d`, which has led from the state `s` to `s₁`. -/
structure Reports (rules : Rules) (s : Solver) (d : Lit) (s₁ : Solver) : Prop where
  /-- No literal is reported twice. -/
  nodup : ∀ known : Var → Bool, (s₁.newlyImplied known).1.Nodup
  /-- What is reported had no value, is not the decision, and follows by unit propagation from
  the trail and the decision; and all of this is reported, as far as the caller asks for it. -/
  mem_iff : ∀ (known : Var → Bool) (l : Lit), l ∈ (s₁.newlyImplied known).1 ↔
    known l.var = true ∧ s.engine.trail.truth l = .unset ∧ l ≠ d ∧
      s.engine.store.Derivable (s.engine.trail.lits.toList ++ [d]) l
  /-- It is reported only once. -/
  once : ∀ (known : Var → Bool) (s₂ : Solver), Interlude rules (s₁.newlyImplied known).2 s₂ →
    ∀ known' : Var → Bool, (s₂.newlyImplied known').1 = []
  /-- Taking the decision back leaves no trace on the trail, and of the stored constraints only
  the order of literals may have changed. -/
  undone : ∀ s₂, Reads s₁ s₂ → ∃ s₃, s₂.undo d.var = .ok s₃ ∧
    s.engine.trail.Same s₃.engine.trail ∧ s.engine.store.Same s₃.engine.store

/-- The decision can be taken back, whatever was read in between. -/
theorem undone_of_decides {d : Lit} (hdec : Decides s d s₁) (hv : s.engine.trail.Valid)
    (hidle : s.engine.Idle) (hcancel : ∃ e, s₁.engine.cancelUntil s.engine.trail.level = .ok e)
    (hreads : Reads s₁ s₂) : ∃ s₃, s₂.undo d.var = .ok s₃ ∧
      s.engine.trail.Same s₃.engine.trail ∧ s.engine.store.Same s₃.engine.store := by
  obtain ⟨later, hlits⟩ := hdec.lits
  obtain ⟨e, he⟩ := hcancel
  have heng := hreads.engine_eq
  have hmem : d ∈ s₁.engine.trail := by
    rw [Trail.mem_def, hlits]
    simp
  -- the decision belongs to the level that was opened for it
  have hnew : d ∉ s.engine.trail.openLevel := fun hd => by
    have hdistinct := hdec.valid.distinct
    rw [hlits, List.map_append, List.nodup_append] at hdistinct
    exact hdistinct.2.2 d.var (List.mem_map_of_mem hd) d.var (by simp) rfl
  have hlevel : s₁.engine.trail.levelOf d.var = s.engine.trail.level + 1 := by
    rw [hdec.longer.levelOf_of_not_mem (Trail.valid_openLevel hv) hdec.valid hmem hnew,
      Trail.level_openLevel]
  have hlev : s₂.level d.var = .ok (some (s.engine.trail.level + 1)) := by
    rw [Solver.level_of_mem (heng ▸ hdec.valid) (heng ▸ hmem), heng, hlevel]
  refine ⟨{ s₂.setUnread false with engine := e }, ?_, ?_, ?_⟩
  · rw [Solver.undo, hlev, ok_bind]
    exact bind_eq_ok.2 ⟨e, heng ▸ he, rfl⟩
  · show s.engine.trail.Same e.trail
    rw [Engine.trail_of_cancelUntil he]
    exact Trail.same_of_rewind hv hidle hdec.longer hdec.valid hdec.queued
  · have hstore : e.store = s₁.engine.store := by
      rw [Engine.store, Engine.network_of_cancelUntil he]
    exact hstore ▸ hdec.stored

/-- Where nothing more is forced, a decision that succeeds reports exactly what it implies, and
can be taken back without a trace. Only a search that was canceled in a conflict at the ground level
is ruled out before it: such a search leaves facts that are never propagated, and if the violated
constraint was learnt, a reduction can remove it, so that no stored constraint shows the gap. -/
theorem reports_of_decide (h : Session rules s L) (hover : ¬ L.overlooked) (hok : s.ok = true)
    (hfix : ∀ a c, s.engine.store.get? a = some c → c.AtFixpoint s.engine.trail)
    (hdecide : s.decide v phase = .ok (true, s₁)) : Reports rules s (v.lit !phase) s₁ := by
  obtain ⟨s₀, -, hd, ho⟩ := directed_of_session h
  have hs := hd.steered (hd.ok hok)
  have hidle := hd.idle hok
  -- a constraint that was forgotten would be violated, and not at its fixpoint
  have hwatch : s.engine.Watching := by
    refine (hd.watching_iff hok hover).2 ?_
    rintro ⟨a, c, hc, hfalse⟩
    exact (hfix a c hc).not_falsified hs.valid hfalse
  have hdec := decides_of_decide hs (orderly_of_session h) hidle hwatch hdecide
  obtain ⟨later, hlits⟩ := hdec.lits
  have hs₁ : Session rules s₁ L := h.steer hok (.decide v phase hdecide)
  refine ⟨fun known => ?_, fun known l => ?_, fun known s₂ hinter known' => ?_, fun s₂ hreads => ?_⟩
  · have hdistinct := hdec.valid.distinct
    rw [hlits, List.map_append, List.nodup_append, List.map_cons, List.nodup_cons] at hdistinct
    rw [hdec.newlyImplied_eq hlits]
    exact (List.nodup_reverse.2 hdistinct.2.1.2.of_map).filter _
  · rw [hdec.newlyImplied_eq hlits, List.mem_filter, List.mem_reverse,
      hdec.mem_later_iff hs.valid hlits, hdec.closure]
    constructor
    · rintro ⟨⟨hderivable, hunset, hne⟩, hknown⟩
      exact ⟨hknown, hunset, hne, hderivable⟩
    · rintro ⟨hknown, hunset, hne, hderivable⟩
      exact ⟨⟨hderivable, hunset, hne⟩, hknown⟩
  · exact newlyImplied_of_not_unread (hinter.unread rfl) known'
  · obtain ⟨hok₁, -⟩ := watching_of_steer hd hok ho hwatch (.decide v phase hdecide)
    obtain ⟨s₂', -, hd₁, -⟩ := directed_of_session hs₁
    have hf₁ := (hd₁.steered (hd₁.ok (hok₁.trans hok))).reaches.fit
    exact undone_of_decides hdec hs.valid hidle
      (Engine.succeeds_cancelUntil hf₁ (orderly_of_session hs₁) _) hreads

/-- A decision that implies another literal through a clause, and the complement of a third through
a bound. -/
theorem reports_of_clause_and_bound :
    ∃ s s₁, Session {} s { added := [.atMost [x1, x2] 1, .clause [x0.neg, x1]] } ∧
      s.ok = true ∧ s.decide x0.var true = .ok (true, s₁) ∧
      (s₁.newlyImplied fun _ => true).1 = [x2.neg, x1] ∧ Reports {} s x0 s₁ := by
  have hpass : ((Solver.ofDemands 3 [.clause [x0.neg, x1], .atMost [x1, x2] 1] >>= fun s =>
      s.decide x0.var true >>= fun x => return (s, x)).toOption.any fun x =>
        x.1.ok && x.2.1 &&
          (x.2.2.newlyImplied fun _ => true).1 == [x2.neg, x1]) = true := by
    simp (disch := decide) only [Solver.ofDemands, Solver.addDemands, Solver.demand,
      Solver.addClause, Solver.addAtMost, Engine.addAtMost, Engine.addClause, Engine.addReduced,
      Lit.sortDistinct_of_pairwise, Lit.sort_eq_insertionSort]
    decide +kernel
  obtain ⟨s, x, hrun, h, hx⟩ := exists_run_of_test hpass (by decide) (by decide)
  simp only [bind_eq_ok, pure_eq_ok] at h
  obtain ⟨⟨b, s₁⟩, hdecide, rfl⟩ := h
  simp only [Bool.and_eq_true, beq_iff_eq] at hx
  obtain ⟨⟨hok, rfl⟩, hread⟩ := hx
  have hs : Session {} s { added := [.atMost [x1, x2] 1, .clause [x0.neg, x1]] } :=
    session_of_run (hrun _)
  have hr := (valid_of_run (hrun {})).resting hok
  exact ⟨s, s₁, hs, hok, hdecide, hread, reports_of_decide hs id hok
    (fun a c hc => (hr.watching id).atFixpoint hr.fit.sane hr.idle hc) hdecide⟩

end CardSat
