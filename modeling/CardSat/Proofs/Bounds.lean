import CardSat.Proofs.Analysis.Minimising
import CardSat.Proofs.Ledger.Asserting
import CardSat.Proofs.Ledger.Demands

set_option autoImplicit false

/-! # Adding an at-most constraint

An at-most constraint may be added at the ground level whatever its literals are: they may be
repeated, complementary, or have a value already. Adding it is not refused, and afterwards the
worlds are those that make at most `bound` of its distinct literals true (`worlds_of_addAtMost`).
Only literals that are true already and occur more than once spoil this, because each occurrence uses
up the bound. The bound has to be a signed word.
-/

namespace CardSat

open Lit (x0 x1 x2)

variable {rules : Rules} {s : Solver} {L : Ledger} {lits : List Lit} {bound : Nat}

namespace Engine

variable {e : Engine} {R : World → Prop} {good : Prop}

/-- At rest the stored constraints and the ground level say what the problem says. -/
theorem Resting.admits_iff (hr : e.Resting good) {w : World} :
    e.network.Admits w ↔ e.Problem w := by
  constructor
  · intro hw
    refine ⟨fun h _ c hc => hw.stored h c hc, fun l hl => ?_, fun _ l hl => hw.ground l hl⟩
    obtain ⟨hmem, hlevel⟩ := hr.placed l hl
    exact hw.ground l hmem hlevel
  · exact fun hw => ⟨hr.fit.sound.stored w hw, hr.fit.sound.ground w hw⟩

/-! ## Adding is not refused -/

/-- Known literals can be taken into account. -/
theorem succeeds_take {t : Trail} {l : Lit} (hl : l.var.index < t.varCount) (r : Remainder) :
    Succeeds (r.take t l) := by
  refine succeeds_bind (Trail.succeeds_isTrue hl) fun b _ => ?_
  split
  next => exact succeeds_pure _
  next =>
    split
    next => exact succeeds_pure _
    next =>
      refine succeeds_bind (Trail.succeeds_isFalse hl) fun f _ => ?_
      split
      next => exact succeeds_pure _
      next => exact succeeds_pure _

theorem succeeds_takeAll {t : Trail} {ls : List Lit} (hls : ∀ l ∈ ls, l.var.index < t.varCount)
    (r : Remainder) : Succeeds (ls.foldlM (Remainder.take t) r) := by
  induction ls generalizing r with
  | nil => exact succeeds_pure r
  | cons l ls ih =>
      rw [List.foldlM_cons]
      exact succeeds_bind (succeeds_take (hls l (by simp)) r) fun r' _ =>
        ih (fun m hm => hls m (List.mem_cons_of_mem l hm)) r'

theorem returns_of_addFact {l : Lit} (hl : l.var.index < e.trail.varCount)
    (hu : e.trail.truth l = .unset) :
    ∃ e', e.addFact l = .ok e' ∧ e.trail.Assigned l none e'.trail := by
  obtain ⟨t, ht⟩ := Trail.succeeds_assign hl hu none
  exact ⟨_, bind_eq_ok.2 ⟨t, ht, rfl⟩, Trail.assigned_of_assign ht⟩

/-- Literals without values can be made false. -/
theorem succeeds_addFacts {ls : List Lit} (hknown : ∀ l ∈ ls, l.var.index < e.trail.varCount)
    (hunset : ∀ l ∈ ls, e.trail.truth l = .unset) (hdistinct : (ls.map Lit.var).Nodup) :
    Succeeds (ls.foldlM (fun e l => addFact e l.neg) e) := by
  induction ls generalizing e with
  | nil => exact succeeds_pure _
  | cons l ls ih =>
      rw [List.map_cons, List.nodup_cons] at hdistinct
      have hneg : e.trail.truth l.neg = .unset := by
        rw [Trail.truth_neg, hunset l (by simp)]
        rfl
      obtain ⟨e₁, h₁, ha⟩ := returns_of_addFact (l := l.neg) (hknown l (by simp)) hneg
      rw [List.foldlM_cons, h₁, ok_bind]
      -- the other literals are over other variables
      refine ih (fun m hm => ?_) (fun m hm => ?_) hdistinct.2
      · exact ha.varCount ▸ hknown m (List.mem_cons_of_mem l hm)
      · refine (ha.truth_of_ne fun hv => hdistinct.1 ?_).trans (hunset m (List.mem_cons_of_mem l hm))
        exact List.mem_map.2 ⟨m, hm, hv⟩

/-- An at-most constraint over known variables can be put on watch. -/
theorem succeeds_watchAtMost {w : WatchIndex} {c : Constraint} {n : Nat} {h : Handle}
    (hw : w.Covers n) (hc : c.WellFormed n) (ha : c.isAtMost = true) : Succeeds (w.watch c h) := by
  obtain ⟨ls, hls⟩ := Constraint.succeeds_watched hc
  have hknown : ∀ l ∈ ls, l.var.index < n := fun l hl => by
    rw [Constraint.watched_eq_ok hls] at hl
    exact hc.known l (Constraint.mem_of_mem_watchedLits hl)
  obtain ⟨w', hfold, -⟩ := WatchIndex.returns_of_modifyAll
    (f := fun line => { line with watchers := line.watchers.push ⟨h, none⟩ }) hw hknown
  refine ⟨w', ?_⟩
  rw [WatchIndex.watch, if_pos ha, hls]
  exact hfold

/-- An at-most constraint is stored and put on watch. -/
theorem succeeds_storeAtMost {r : Remainder} {k : Nat} (hf : e.Fit R) (ho : e.Orderly)
    (ht : Taking e.trail bound (Lit.sort lits) r) (hk : 0 < k ∧ k < r.lits.size) :
    ∃ a db store, e.database.addAtMost e.store r.lits k = .ok (a, db, store) ∧
      Succeeds ({ e with database := db, network := { e.network with store } }.watch a) := by
  have hwf := ht.wellFormed hk
  obtain ⟨⟨a, db, store⟩, hadd⟩ : Succeeds (e.database.addGiven e.store (.atMost k) r.lits) :=
    succeeds_bind (succeeds_bind (succeeds_require _ (decide_eq_true hwf.two_le)) fun _ _ =>
      succeeds_pure _) fun _ _ => succeeds_pure _
  obtain ⟨hadded, -⟩ := Database.added_of_addGiven (fun _ _ hk => by cases hk) hf.listed hadd
  have hget : store.get? a = some ⟨.atMost k, r.lits⟩ := by rw [hadded.get?, if_pos rfl]
  obtain ⟨index, hindex⟩ := succeeds_watchAtMost (h := a) ho.tended.covers hwf rfl
  refine ⟨a, db, store, ?_, { e with database := db, network := { e.network with store, index } }, ?_⟩
  · exact bind_eq_ok.2 ⟨(), require_eq_ok.2 (decide_eq_true hk), hadd⟩
  · exact bind_eq_ok.2 ⟨_, Store.fetch_eq_ok.2 hget, bind_eq_ok.2 ⟨index, hindex, rfl⟩⟩

theorem succeeds_addAtMost (hf : e.Fit R) (ho : e.Orderly) (hground : e.trail.level = 0)
    (hlits : ∀ l ∈ lits, l.var.index < e.trail.varCount) : Succeeds (e.addAtMost lits bound) := by
  refine succeeds_bind (succeeds_require _ (beq_iff_eq.2 hground)) fun _ _ => ?_
  -- every literal can be taken into account, and what happens next depends on what is left
  obtain ⟨r, htake⟩ := succeeds_takeAll (t := e.trail)
    (fun l hl => hlits l (Lit.mem_sort.1 hl)) { bound := Int64.ofNat bound }
  have ht := taking_of_foldlM hf.sane.trail htake
  have hknown : ∀ l ∈ r.lits.toList, l.var.index < e.trail.varCount := fun l hl =>
    ht.known l (ht.sub l hl)
  refine succeeds_bind ⟨r, htake⟩ fun r' h' => ?_
  obtain rfl := Except.ok.inj (htake.symm.trans h')
  split
  next => exact succeeds_pure _
  next hsmall =>
    split
    next => exact succeeds_pure _
    next hneg =>
      split
      next =>
        rw [← Array.foldlM_toList]
        refine succeeds_bind (succeeds_addFacts hknown ht.unset ht.distinct) fun e₁ hfacts => ?_
        obtain ⟨hr, -⟩ := reaches_of_facts (hf.anti fun _ => False.elim) hground
          (fun w => False.elim) hfacts
        obtain ⟨failed, e₂, hprop, -⟩ :=
          returns_of_propagate hr.fit (orderly_of_addFacts ho hfacts)
        exact succeeds_bind ⟨_, hprop⟩ fun _ _ => succeeds_pure _
      next hzero =>
        -- the three tests before have left a bound above zero and below the number of literals
        have hbounds : 0 < r.bound.toInt.toNat ∧ r.bound.toInt.toNat < r.lits.size := by
          rw [Int64.lt_iff_toInt_lt, Int64.toInt_zero] at hneg
          rw [← Int64.toInt_inj, Int64.toInt_zero] at hzero
          omega
        obtain ⟨a, db, store, hadd, hwatch⟩ := succeeds_storeAtMost hf ho ht hbounds
        exact succeeds_bind ⟨_, hadd⟩ fun x hx => by
          obtain rfl := Except.ok.inj (hadd.symm.trans hx)
          exact succeeds_bind hwatch fun _ _ => succeeds_pure _

end Engine

/-! ## What is added -/

/-- At the ground level an at-most constraint over known variables is added as it is meant, except
that repetitions of literals which are true already count. Without such repetitions it does not
matter which literals have a value. -/
theorem worlds_of_addAtMost (h : Session rules s L) (hok : s.ok = true)
    (hground : s.engine.trail.level = 0) (hlits : ∀ l ∈ lits, l.var.index < s.varCount)
    (hlength : lits.length < 2 ^ 63) (hbound : bound < 2 ^ 63) :
    ∃ b s', s.addAtMost lits bound = .ok (b, s') ∧ s'.ok = b ∧
      (b = true → ∀ w, s'.engine.network.Admits w ↔ s.engine.network.Admits w ∧
        w.count lits + s.engine.trail.surplus lits ≤ bound) ∧
      (b = false → ∀ w, ¬ (s.engine.network.Admits w ∧
        w.count lits + s.engine.trail.surplus lits ≤ bound)) ∧
      ((lits.filter fun l => s.engine.trail.truth l = .yes).Nodup →
        s.engine.trail.surplus lits = 0) := by
  obtain ⟨s₀, hv, hd, -⟩ := directed_of_session h
  have hr := (hd.valid hv hground).resting hok
  obtain ⟨⟨b, e⟩, hadd⟩ : Succeeds (s.engine.addAtMost lits bound) :=
    Engine.succeeds_addAtMost hr.fit (orderly_of_session h) hground hlits
  obtain ⟨r, ht, ha⟩ := Engine.adds_of_addAtMost hr hadd
  -- what is left of the constraint says the same in the worlds of the problem
  have hleft : ∀ w, s.engine.Problem w →
      ((r.lits.toList.countP (Lit.holds w) : Int) ≤ r.bound.toInt ↔
        w.count lits + s.engine.trail.surplus lits ≤ bound) := fun w hw =>
    ht.countP_le_iff hlength (hr.holds hw) hbound
  refine ⟨b, { s with ok := b, engine := e }, ?_, rfl, ?_, ?_, Trail.surplus_eq_zero⟩
  · rw [Solver.addAtMost, Solver.whileOk, if_pos hok, hadd]
    rfl
  · rintro rfl w
    calc e.network.Admits w ↔ e.Problem w := ha.resting.admits_iff
      _ ↔ s.engine.Problem w ∧
          (r.lits.toList.countP (Lit.holds w) : Int) ≤ r.bound.toInt := ha.problem_iff
      _ ↔ s.engine.Problem w ∧ w.count lits + s.engine.trail.surplus lits ≤ bound :=
        and_congr_right (hleft w)
      _ ↔ _ := and_congr_left' hr.admits_iff.symm
  · rintro rfl w ⟨hw, hcount⟩
    have hp := hr.admits_iff.1 hw
    exact ha.refuted rfl w hp ((hleft w hp).2 hcount)

/-- One of the literals is true already, and another one is repeated. -/
theorem worlds_of_bound_after_fact :
    ∃ s s', Session {} s { added := [.clause [x0]] } ∧ x0 ∈ s.engine.trail ∧
      s.addAtMost [x0, x1, x1, x2] 2 = .ok (true, s') ∧
      ∀ w, s'.engine.network.Admits w ↔
        s.engine.network.Admits w ∧ w.count [x0, x1, x1, x2] ≤ 2 := by
  have hpass : ((Solver.ofDemands 3 [.clause [x0]] >>= fun s =>
      s.addAtMost [x0, x1, x1, x2] 2 >>= fun x => return (s, x)).toOption.any fun x =>
        x.1.ok && x.1.engine.trail.level == 0 && x.1.varCount == 3 && x.2.1 &&
          x.1.engine.trail.lits == #[x0]) = true := by
    simp (disch := decide) only [Solver.ofDemands, Solver.addDemands, Solver.demand,
      Solver.addClause, Solver.addAtMost, Engine.addAtMost, Engine.addClause, Engine.addReduced,
      Lit.sortDistinct_of_pairwise, Lit.sort_eq_insertionSort]
    decide +kernel
  obtain ⟨s, x, hrun, h, hx⟩ := exists_run_of_test hpass (by decide) (by decide)
  simp only [bind_eq_ok, pure_eq_ok] at h
  obtain ⟨⟨b, s'⟩, hadd, rfl⟩ := h
  simp only [Bool.and_eq_true, beq_iff_eq] at hx
  obtain ⟨⟨⟨⟨hok, hground⟩, hvars⟩, rfl⟩, htrail⟩ := hx
  have hs : Session {} s { added := [.clause [x0]] } := session_of_run (hrun _)
  have hknown : ∀ l ∈ [x0, x1, x1, x2], l.var.index < s.varCount := by
    rw [hvars]
    decide
  obtain ⟨b, s'', hadd', -, hworlds, -, hnone⟩ :=
    worlds_of_addAtMost hs hok hground hknown (by decide) (by decide : 2 < 2 ^ 63)
  obtain ⟨rfl, rfl⟩ := Prod.mk.inj (Except.ok.inj (hadd'.symm.trans hadd))
  obtain ⟨s₀, -, hd, -⟩ := directed_of_session hs
  have hmem : ∀ l, s.engine.trail.truth l = .yes ↔ l = x0 := fun l => by
    rw [(hd.steered (hd.ok hok)).valid.truth_yes, Trail.mem_def, htrail]
    simp
  have hzero := hnone (by simp only [hmem]; decide)
  rw [hzero] at hworlds
  exact ⟨s, s'', hs, (Trail.mem_def).2 (by simp [htrail]), hadd, hworlds rfl⟩

end CardSat
