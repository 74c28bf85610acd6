import CardSat.Proofs.Database.Thinning
import CardSat.Proofs.Engine.Returning
import CardSat.Proofs.Trail.Backjump

set_option autoImplicit false

/-! # A search under way

Between two steps of a search the engine is in order and every level begins with its decision
(`Engine.Underway`). Such an engine can go on: it propagates, learns from a conflict, thins out its
constraints and looks at its assumptions, and none of these steps is refused. Each of them leads to
such an engine again, so every round of a search begins with one (`underway_of_round`).

What learning does to the trail is a `Trail.Backjump`. It is what the rank of a trail grows by, so
it is taken out of the two ways in which a search learns, a fact or a clause, before ranks are
compared (`backjump_of_learnFrom`).

## What could be refused

An analysis needs levels that begin with their decisions, or it walks off the trail. Learning needs
the first literal of its clause without a value after going back. Thinning needs the constraints on
the lists to be stored. The invariant has all three, and a search keeps them since nobody else opens
levels or takes them back.
-/

namespace CardSat

/-! ## Thinning -/

namespace WatchIndex

variable {w : WatchIndex} {c : Constraint} {n : Nat}

/-- The lines of a constraint over covered variables can be marked. -/
theorem returns_of_markStale (hw : w.Covers n) (hc : c.WellFormed n) :
    ∃ w', w.markStale c = .ok w' ∧ w'.Covers n := by
  obtain ⟨ls, hls⟩ := Constraint.succeeds_watchKeys hc
  obtain rfl := Constraint.watchKeys_eq_ok hls
  obtain ⟨w', hfold, hcov⟩ := returns_of_modifyAll hw fun l hl => hc.known_of_mem_keys hl
  exact ⟨w', bind_eq_ok.2 ⟨c.keys, hls, hfold⟩, hcov⟩

/-- The lines of constraints over known variables can be marked. -/
theorem succeeds_markStale_all {xs : List (Handle × Constraint)} (hw : w.Covers n)
    (hxs : ∀ x ∈ xs, x.2.WellFormed n) :
    Succeeds (xs.foldlM (fun (w : WatchIndex) x => w.markStale x.2) w) := by
  obtain ⟨w', hfold, -⟩ := succeeds_foldlM
    (f := fun (w : WatchIndex) (x : Handle × Constraint) => w.markStale x.2)
    (fun rest w₁ => w₁.Covers n ∧ ∀ x ∈ rest, x.2.WellFormed n) (fun x rest w₁ ⟨hcov, hrest⟩ => by
      obtain ⟨w₂, h₂, hcov₂⟩ := returns_of_markStale hcov (hrest x (by simp))
      exact ⟨w₂, h₂, hcov₂, fun y hy => hrest y (List.mem_cons_of_mem _ hy)⟩) ⟨hw, hxs⟩
  exact ⟨w', hfold⟩

end WatchIndex

/-- The queue can be made anew if all variables that can be decided are known. -/
theorem Decisions.succeeds_rebuild {d : Decisions} {t : Trail}
    (hknown : ∀ v, (d.decides v).isSome = true → v.index < t.varCount) :
    Succeeds (d.rebuild t) := by
  refine succeeds_bind (succeeds_filterMapM fun a ha => ?_) fun _ _ => succeeds_pure _
  obtain ⟨i, choice⟩ := a
  have hi : i < t.varCount := hknown ⟨i⟩ (by simp [decides, SparseTable.mem_entries.1 ha])
  dsimp only
  split
  · exact succeeds_bind (Trail.succeeds_isUnset (v := ⟨i⟩) hi) fun _ _ => succeeds_pure _
  · exact succeeds_pure _

namespace Engine

variable {e e' e₀ : Engine} {R : World → Prop} {good : Prop} {as : Array Lit} {h : Handle}
  {l : Lit} {task : Task}

/-- Taking in what a sweep has left is not refused. -/
theorem succeeds_afterSweep (db : Database) {s : Database.Sweep} (ho : e.Orderly)
    (hremoved : ∀ x ∈ s.removed.toList, x.2.WellFormed e.trail.varCount) :
    Succeeds (e.afterSweep db s) := by
  obtain ⟨w, hw⟩ := WatchIndex.succeeds_markStale_all ho.tended.covers hremoved
  rw [Array.foldlM_toList] at hw
  exact succeeds_bind ⟨w, hw⟩ fun _ _ => succeeds_pure _

/-- Simplifying is not refused. -/
theorem succeeds_simplify (hf : e.Fit R) (ho : e.Orderly) : Succeeds e.simplify := by
  rw [simplify]
  split
  next => exact succeeds_pure _
  next hcond =>
      simp only [Bool.or_eq_true, not_or, Bool.not_eq_true', Trail.isGround, beq_iff_eq] at hcond
      have hground : e.trail.level = 0 := by simpa using hcond.1.1
      obtain ⟨db, s, hsweep, hcount, hremoved⟩ := Database.succeeds_removeSatisfied
        (!e.settings.incremental) (!e.settings.incremental) hground hf.listed.nodup ho.stored
        hf.sane.formed
      obtain ⟨e₁, he₁⟩ := succeeds_afterSweep db ho hremoved
      obtain ⟨index, -, -, heq⟩ := afterSweep_eq_ok he₁
      have hrebuild : Succeeds (e₁.decisions.rebuild e₁.trail) :=
        Decisions.succeeds_rebuild fun v hv => by
          subst heq
          exact hcount.symm ▸ (ho.known v).1 hv
      simp only [hsweep, ok_bind, he₁]
      exact succeeds_bind hrebuild fun _ _ => succeeds_pure _

/-- Giving up learnt clauses is not refused. -/
theorem succeeds_reduce (hf : e.Fit R) (ho : e.Orderly) : Succeeds e.reduce := by
  rw [reduce]
  dsimp only
  split
  next =>
      obtain ⟨db, s, hsweep, hremoved⟩ := e.database.succeeds_reduce
        (List.nodup_append.1 hf.listed.nodup).2.1 ho.learnts_stored hf.sane.formed
      obtain ⟨e₁, he₁⟩ := succeeds_afterSweep db ho hremoved
      simp only [hsweep, ok_bind, he₁]
      exact succeeds_pure _
  next => exact succeeds_pure _

/-! ## Choosing -/

/-- Looking at assumptions about known variables is not refused. -/
theorem succeeds_chooseAssumption : ∀ {n : Nat} {e : Engine}, e.Fit R → e.Idle →
    (∀ p ∈ as.toList, p.var.index < e.trail.varCount) → Succeeds (chooseAssumption as n e) := by
  intro n
  induction n with
  | zero => exact fun _ _ _ => succeeds_pure _
  | succ n ih =>
      intro e hf hidle has
      rw [chooseAssumption]
      split
      next => exact succeeds_pure _
      next p hp =>
          have hknown : p.var.index < e.trail.varCount :=
            has p (List.mem_of_getElem? (by rw [Array.getElem?_toList]; exact hp))
          refine succeeds_bind (Trail.succeeds_value hknown) fun x _ => ?_
          cases x with
          | yes => exact ih (reaches_of_openLevel hf hidle).fit hidle has
          | no =>
              exact succeeds_bind (Analysis.succeeds_failedAssumptions hf.sane.justified
                hf.marked (p := p.neg) hknown) fun _ _ => succeeds_pure _
          | unset => exact succeeds_pure _

/-- Looking at assumptions opens levels without literals. -/
theorem opened_of_chooseAssumption : ∀ {n : Nat} {e : Engine} {o : Option Choosing},
    chooseAssumption as n e = .ok (o, e') → ∃ k ≤ n, ∃ a, e' = { e with
      network := { e.network with trail := Trail.openLevel^[k] e.trail }, analysis := a } := by
  intro n
  induction n with
  | zero =>
      intro e o h
      simp only [chooseAssumption, pure_eq_ok, Prod.mk.injEq] at h
      exact ⟨0, Nat.le_refl _, e.analysis, h.2 ▸ rfl⟩
  | succ n ih =>
      intro e o h
      simp only [chooseAssumption] at h
      split at h
      next =>
          simp only [pure_eq_ok, Prod.mk.injEq] at h
          exact ⟨0, Nat.zero_le _, e.analysis, h.2 ▸ rfl⟩
      next p hp =>
          simp only [bind_eq_ok] at h
          obtain ⟨x, -, h⟩ := h
          split at h
          next =>
              obtain ⟨k, hk, a, rfl⟩ := ih h
              exact ⟨k + 1, Nat.succ_le_succ hk, a, rfl⟩
          next =>
              simp only [bind_eq_ok, pure_eq_ok, Prod.mk.injEq] at h
              obtain ⟨⟨_, a⟩, -, -, rfl⟩ := h
              exact ⟨0, Nat.zero_le _, a, rfl⟩
          next =>
              simp only [pure_eq_ok, Prod.mk.injEq] at h
              exact ⟨0, Nat.zero_le _, e.analysis, h.2 ▸ rfl⟩

/-- Choosing opens levels without literals, for assumptions that are left, and it may count a
decision. -/
theorem opened_of_choose {c : Choosing} (h : e.choose as = .ok (c, e')) :
    ∃ k ≤ as.size - e.trail.level, ∃ a d, ∃ m ≤ e.decided + 1, e' = { e with
      network := { e.network with trail := Trail.openLevel^[k] e.trail }
      analysis := a, decisions := d, decided := m } := by
  cases chooses_of_choose h with
  | assumed hassumed =>
      obtain ⟨k, hk, a, rfl⟩ := opened_of_chooseAssumption hassumed
      exact ⟨k, hk, a, e.decisions, e.decided, Nat.le_succ _, rfl⟩
  | @complete e₁ d hassumed =>
      obtain ⟨k, hk, a, rfl⟩ := opened_of_chooseAssumption hassumed
      exact ⟨k, hk, a, d, e.decided, Nat.le_succ _, rfl⟩
  | @decide e₁ d l hassumed =>
      obtain ⟨k, hk, a, rfl⟩ := opened_of_chooseAssumption hassumed
      exact ⟨k, hk, a, d, e.decided + 1, Nat.le_refl _, rfl⟩

/-! ## The invariant -/

/-- A state of the search that began in `e`, between two steps. -/
structure Underway (R : World → Prop) (good : Prop) (as : Array Lit) (e e' : Engine) : Prop where
  searching : Searching R good as e e'
  orderly : e'.Orderly
  led : e'.trail.Led

/-- A state of the search that began in `e` in which a constraint has failed. -/
structure Halted (R : World → Prop) (good : Prop) (as : Array Lit) (e e' : Engine) (h : Handle) :
    Prop where
  broken : Broken R good as e e' h
  orderly : e'.Orderly
  led : e'.trail.Led

/-- The trail is valid. -/
theorem Halted.valid (hh : Halted R good as e₀ e h) : e.trail.Valid :=
  hh.broken.reaches.fit.sane.trail

/-- Counting a conflict. -/
theorem Halted.counted (hh : Halted R good as e₀ e h) :
    Halted R good as e₀ { e with conflicts := e.conflicts + 1 } h :=
  ⟨hh.broken.counted, hh.orderly.bookkeeping rfl ⟨rfl, rfl, rfl⟩, hh.led⟩

namespace Underway

/-- The engine is fit. -/
theorem fit (hu : Underway R good as e₀ e) : e.Fit R := hu.searching.reaches.fit

/-- The trail is valid. -/
theorem valid (hu : Underway R good as e₀ e) : e.trail.Valid := hu.fit.sane.trail

/-- At the ground level a search may begin. -/
theorem opened (hf : e.Fit R) (ho : e.Orderly) (hground : e.trail.level = 0)
    (hw : good → e.Watching) (as : Array Lit) : Underway R good as e e.opened :=
  ⟨⟨reaches_of_opened hf, .start e.trail as, hw⟩, ho.opened,
    Trail.led_of_ground (t := e.opened.trail) hf.sane.trail hground⟩

/-- A propagation ends at its fixpoint or with a conflict. -/
theorem propagate {failed : Option Handle} (hu : Underway R good as e₀ e)
    (hp : e.propagate = .ok (failed, e')) :
    e'.Idle ∧ e.trail.Extends e'.trail ∧ (failed = none → Underway R good as e₀ e') ∧
      ∀ h, failed = some h → Halted R good as e₀ e' h := by
  obtain ⟨hidle, hnone, hsome⟩ := searching_of_propagate hu.searching hp
  have hprop : e.Propagated R good failed e' :=
    propagated_of_propagate hu.fit hu.searching.watching hp
  have ho := orderly_of_propagate hu.fit hu.orderly hp
  have hled := hu.led.extends hprop.longer hprop.reaches.fit.sane.trail hprop.forced
  exact ⟨hidle, hprop.longer, fun hf => ⟨hnone hf, ho, hled⟩, fun a ha => ⟨hsome a ha, ho, hled⟩⟩

/-- Constraints are simplified, and learnt clauses given up. -/
theorem tidy {e₁ : Engine} (hu : Underway R good as e₀ e) (hidle : e.Idle)
    (hsimp : e.simplify = .ok e₁) (hred : e₁.reduce = .ok e') :
    e'.Idle ∧ e.trail.Cleared e'.trail ∧ Underway R good as e₀ e' := by
  obtain ⟨hs₁, hidle₁⟩ := searching_of_simplify hu.searching hsimp
  obtain ⟨hs₂, hidle₂⟩ := searching_of_reduce hs₁ hred
  obtain ⟨-, hclear, habove, -⟩ := reaches_of_simplify hu.fit hu.searching.watching hsimp
  obtain ⟨-, htrail, -⟩ := reaches_of_reduce hs₁.reaches.fit hs₁.watching hred
  have ho₁ := orderly_of_simplify hu.fit hu.orderly hsimp
  have ho₂ := orderly_of_reduce hs₁.reaches.fit ho₁ hred
  refine ⟨hidle₂ (hidle₁ hidle), htrail ▸ hclear, hs₂, ho₂, ?_⟩
  rw [htrail]
  rcases Nat.eq_zero_or_pos e.trail.level with hground | hpos
  · exact Trail.led_of_ground hs₁.reaches.fit.sane.trail (hclear.level_eq.trans hground)
  · exact (habove hpos).symm ▸ hu.led

/-- Simplifying and reducing are not refused. -/
theorem returns_of_tidy (hu : Underway R good as e₀ e) :
    ∃ e₁ e', e.simplify = .ok e₁ ∧ e₁.reduce = .ok e' := by
  obtain ⟨e₁, hsimp⟩ := succeeds_simplify hu.fit hu.orderly
  obtain ⟨e', hred⟩ := succeeds_reduce (searching_of_simplify hu.searching hsimp).1.reaches.fit
    (orderly_of_simplify hu.fit hu.orderly hsimp)
  exact ⟨e₁, e', hsimp, hred⟩

/-- What was chosen is decided. -/
theorem decide {e₁ : Engine} (hu : Underway R good as e₀ e) (hidle : e.Idle)
    (hchoose : e.choose as = .ok (.decide l, e₁)) (hdecide : e₁.decideLit l = .ok e') :
    Underway R good as e₀ e' := by
  have ho := orderly_of_decideLit (orderly_of_choose hu.searching hidle hu.orderly hchoose) hdecide
  refine ⟨searching_of_decideLit (chosen_of_choose hu.searching hidle hchoose) hdecide, ho, ?_⟩
  obtain ⟨k, -, a, d, m, -, rfl⟩ := opened_of_choose hchoose
  have hopened : ∀ k, (Trail.openLevel^[k] e.trail).Valid ∧ (Trail.openLevel^[k] e.trail).Led := by
    intro k
    induction k with
    | zero => exact ⟨hu.valid, hu.led⟩
    | succ k ih =>
        rw [Function.iterate_succ_apply']
        exact ⟨Trail.valid_openLevel ih.1, ih.2.openLevel ih.1⟩
  obtain ⟨t, ht, rfl⟩ := decideLit_eq_ok.1 hdecide
  exact (hopened k).2.decide (hopened k).1 (Trail.assigned_of_assign ht)

end Underway

/-! ## Learning -/

/-- What learning from a conflict does to the trail. -/
theorem backjump_of_learnFrom (hh : Halted R good as e₀ e h) (hl : e.learnFrom h = .ok (true, e')) :
    ∃ k l, e.trail.Backjump k l e'.trail := by
  have hf := hh.broken.reaches.fit
  have hdecay : ∀ e₃ : Engine, e₃.decay.countTowardsLimit.trail = e₃.trail := fun e₃ => by
    obtain ⟨_, _, hcount⟩ := exists_countTowardsLimit e₃.decay
    rw [hcount]
    rfl
  cases learnsFrom_of_learnFrom hl with
  | @unit e₁ e₂ e₃ l hanalyze hcancel hlearn =>
      obtain ⟨hr₁, ⟨hpos, hln, hlev, hR⟩, -, hn₁⟩ :=
        reaches_of_analyze hf hh.broken.conflict hanalyze
      have htrail₂ : e₂.trail = (e.trail.rewind 0).2 := by
        rw [trail_of_cancelUntil hcancel, trail, hn₁]
      rw [learn_singleton] at hlearn
      have hlevel : e₂.trail.level = 0 := by rw [level_of_cancelUntil hcancel, Nat.zero_min]
      obtain ⟨-, hasg, -⟩ := reaches_of_fact (reaches_of_cancelUntil hr₁.fit hcancel).fit hR hlevel
        hlearn
      refine ⟨0, l, hpos, ⟨hln, hlev⟩, (absurd · (Nat.lt_irrefl 0)), none, ?_, by simp⟩
      rw [hdecay, ← htrail₂]
      exact hasg
  | @clause e₁ e₂ e₃ level lits l hanalyze hcancel hfirst hlearn =>
      obtain ⟨hr₁, ⟨hassert, hR⟩, -, hn₁⟩ := reaches_of_analyze hf hh.broken.conflict hanalyze
      have hhead : lits.toList.head? = some l := by
        rw [List.head?_eq_getElem?, Array.getElem?_toList, hfirst]
      have htrail₁ : e₁.trail = e.trail := by rw [trail, hn₁]
      have hforce := forcing_of_cancelUntil hassert hh.valid htrail₁ hcancel hfirst
      obtain ⟨-, ⟨a, hasg⟩, -⟩ := reaches_of_learn_clause
        (reaches_of_cancelUntil hr₁.fit hcancel).fit hforce hR hlearn
      obtain ⟨m, hm, hln, hlev⟩ := hassert.first
      obtain rfl := Option.some.inj (hhead.symm.trans hm)
      -- the second literal is on the level to which the search goes back
      obtain ⟨m, hm, hmlev⟩ := hassert.second
      have hmem : m ∈ lits.toList.tail := by
        refine List.mem_of_getElem? (i := 0) ?_
        rw [List.getElem?_tail]
        exact hm
      refine ⟨level, l, hassert.below, ⟨hln, hlev⟩, fun _ =>
        ⟨m.neg, (hassert.tail m hmem).1, hmlev⟩, some a, ?_, fun _ => rfl⟩
      rw [trail_of_cancelUntil hcancel, htrail₁] at hasg
      rw [hdecay]
      exact hasg

/-- Learning from a conflict leads to a search under way. -/
theorem underway_of_learnFrom (hh : Halted R good as e₀ e h)
    (hl : e.learnFrom h = .ok (true, e')) : Underway R good as e₀ e' := by
  obtain ⟨k, l, hback⟩ := backjump_of_learnFrom hh hl
  exact ⟨(searching_of_learnFrom hh.broken hl).2 rfl, orderly_of_learnFrom hh.broken hh.orderly hl,
    hback.led hh.valid hh.led⟩

/-- Learning from a conflict is not refused. -/
theorem succeeds_learnFrom (hh : Halted R good as e₀ e h) : Succeeds (e.learnFrom h) := by
  have hf := hh.broken.reaches.fit
  refine succeeds_bind (succeeds_analyze hf hh.orderly hh.led hh.broken.conflict) ?_
  rintro ⟨lesson, e₁⟩ hanalyze
  obtain ⟨hr₁, hright, -, hn₁⟩ := reaches_of_analyze hf hh.broken.conflict hanalyze
  have ho₁ := orderly_of_analyze hf hh.orderly hh.broken.conflict hanalyze
  have htrail₁ : e₁.trail = e.trail := by rw [trail, hn₁]
  -- the literal to be learnt is false above the level that is gone back to
  have hunset : ∀ {k : Nat} {l : Lit} {e₂ : Engine}, k < e.trail.level → l.neg ∈ e.trail →
      e.trail.levelOf l.var = e.trail.level → e₁.cancelUntil k = .ok e₂ →
      l.var.index < e₂.trail.varCount ∧ e₂.trail.truth l = .unset := by
    intro k l e₂ hk hln hlev hcancel
    rw [trail_of_cancelUntil hcancel, htrail₁, Trail.varCount_rewind,
      (Trail.valid_rewind hh.valid k).truth_unset]
    refine ⟨hh.valid.lt_varCount (l := l.neg) hln, fun hmem => ?_, fun hmem => ?_⟩
    · exact hh.valid.neg_not_mem ((Trail.mem_rewind hh.valid).1 hmem).1 hln
    · have := ((Trail.mem_rewind hh.valid).1 hmem).2
      rw [Lit.neg_var] at this
      omega
  cases lesson with
  | unsatisfiable => exact succeeds_pure _
  | unit l =>
      obtain ⟨hpos, hln, hlev, -⟩ := hright
      obtain ⟨e₂, hcancel⟩ := succeeds_cancelUntil hr₁.fit ho₁ 0
      obtain ⟨hknown, hu⟩ := hunset hpos hln hlev hcancel
      simp only [hcancel, ok_bind, learn_singleton]
      exact succeeds_bind (succeeds_assign (e := { e₂ with database := e₂.database.addUnit l })
        hknown hu) fun _ _ => succeeds_pure _
  | clause level lits =>
      obtain ⟨hassert, -⟩ := hright
      obtain ⟨l, hhead, hln, hlev⟩ := hassert.first
      have hfetch : fetch lits 0 = .ok l := by
        rw [fetch_eq_ok, ← Array.getElem?_toList, ← List.head?_eq_getElem?, hhead]
      obtain ⟨e₂, hcancel⟩ := succeeds_cancelUntil hr₁.fit ho₁ level
      have hforce :=
        forcing_of_cancelUntil hassert hh.valid htrail₁ hcancel (fetch_eq_ok.1 hfetch)
      simp only [hcancel, ok_bind, hfetch]
      exact succeeds_bind (succeeds_learn (reaches_of_cancelUntil hr₁.fit hcancel).fit
        (orderly_of_cancelUntil hr₁.fit ho₁ hcancel) hforce
        (hunset hassert.below hln hlev hcancel).2) fun _ _ => succeeds_pure _

/-! ## Rounds -/

/-- In every round of a search it is under way. -/
theorem underway_of_round (hu : Underway R good task.assumptions e₀ e) (hr : Round task e e') :
    Underway R good task.assumptions e₀ e' := by
  induction hr with
  | first => exact hu
  | decide _ hprop hsimp hred hchoose hdecide ih =>
      obtain ⟨hidle, -, hnone, -⟩ := ih.propagate hprop
      obtain ⟨hidle', -, hu'⟩ := (hnone rfl).tidy hidle hsimp hred
      exact hu'.decide hidle' hchoose hdecide
  | learn _ hprop hlearn ih =>
      exact underway_of_learnFrom ((ih.propagate hprop).2.2.2 _ rfl).counted hlearn
  | restart hr hprop hcancel ih =>
      have hs := searching_of_round hu.searching (hr.restart hprop hcancel)
      have ho := orderly_of_round hu.searching hu.orderly (hr.restart hprop hcancel)
      refine ⟨hs, ho, Trail.led_of_ground hs.reaches.fit.sane.trail ?_⟩
      exact (level_of_cancelUntil hcancel).trans (Nat.zero_min _)

end Engine

end CardSat
