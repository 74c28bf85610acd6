import CardSat.Proofs.Engine

set_option autoImplicit false

/-! # Keeping the constraints few

`simplify` and `reduce` remove constraints in the middle of a search. What they leave is the same
problem: `reduce` gives up learnt clauses only, and so does `simplify` in the incremental mode.
Outside of it `simplify` also removes and strengthens given constraints, where the literals of the
ground level allow it, and these count as facts then.

This is why the problem of an engine is not the same set of constraints in both modes. In the
incremental mode it is the given constraints and the facts. Outside of it the literals of the ground
level belong to it as well, and the problem can then be recovered from fewer constraints: what was
removed is satisfied by these literals, and what was stripped lost only literals that are false
there (`problem_of_removeSatisfied`).
-/

namespace CardSat

namespace Engine

open Database

variable {e e' : Engine} {R : World → Prop} {good strengthened : Prop} {l : Lit}
  {gone : Handle → Constraint → Prop} {db : Database} {s : Sweep}

/-- No variable is freed by clearing reasons. -/
theorem free_of_cleared {t t' : Trail} (hc : t.Cleared t') : t'.Free = t.Free := by
  funext v
  rw [Trail.Free, Trail.Free, hc.varCount, hc.value]

/-! ## The operations -/

/-- The network and the database after a removal. -/
theorem afterSweep_eq_ok (h : e.afterSweep db s = .ok e') : ∃ index : WatchIndex,
    s.removed.toList.foldlM (fun (w : WatchIndex) x => w.markStale x.2) e.network.index =
        .ok index ∧
      index.line = e.network.index.line ∧ e' = { e with
        database := db
        network := { e.network with store := s.store, trail := s.trail, index := index } } := by
  simp only [afterSweep, bind_eq_ok, pure_eq_ok] at h
  obtain ⟨index, hfold, rfl⟩ := h
  rw [← Array.foldlM_toList] at hfold
  refine ⟨index, hfold, ?_, rfl⟩
  exact foldlM_ok (fun _ (w : WatchIndex) => w.line = e.network.index.line)
    (fun _ _ _ _ h₁ h₂ => (WatchIndex.line_markStale h₂).trans h₁) rfl hfold

/-- Reducing does nothing, or it sweeps and reports. -/
theorem reduce_eq_ok (h : e.reduce = .ok e') : e' = e ∨
    ∃ db s e₁, e.database.reduce e.store e.trail = .ok (db, s) ∧ e.afterSweep db s = .ok e₁ ∧
      e' = e₁.report (.reduced e.database.learnts.size e₁.database.learnts.size) := by
  simp only [reduce] at h
  split at h
  next =>
      simp only [bind_eq_ok, pure_eq_ok] at h
      obtain ⟨⟨db, s⟩, hred, e₁, hsweep, rfl⟩ := h
      exact Or.inr ⟨db, s, e₁, hred, hsweep, rfl⟩
  next => exact Or.inl (pure_eq_ok.1 h).symm

/-- Simplifying does nothing, or it removes what the ground level satisfies. -/
theorem simplify_eq_ok (h : e.simplify = .ok e') : e' = e ∨ e.trail.level = 0 ∧
    ∃ db s e₁ d, e.database.removeSatisfied e.store e.trail (!e.settings.incremental)
        (!e.settings.incremental) = .ok (db, s) ∧
      e.afterSweep db s = .ok e₁ ∧ e₁.decisions.rebuild e₁.trail = .ok d ∧
      e' = { e₁.report (.simplified e.database.counts.given e₁.database.counts.given
          e.database.counts.learnts e₁.database.counts.learnts) with
        decisions := d
        lastSimplified := ⟨some e₁.trail.size, e₁.network.propagations +
          (e₁.database.counts.givenLits + e₁.database.counts.learntLits)⟩ } := by
  simp only [simplify] at h
  split at h
  next => exact Or.inl (pure_eq_ok.1 h).symm
  next hcond =>
      simp only [Trail.isGround, Bool.or_eq_true, not_or, Bool.not_eq_true, Bool.not_eq_false',
        beq_iff_eq] at hcond
      simp only [bind_eq_ok, pure_eq_ok] at h
      obtain ⟨⟨db, s⟩, hrs, e₁, hsweep, d, hrebuild, rfl⟩ := h
      exact Or.inr ⟨hcond.1.1, db, s, e₁, d, hrs, hsweep, hrebuild, rfl⟩

/-- Outside the incremental mode, what is false at the ground level is dead. -/
theorem dead_of_ground (hv : e.trail.Valid) (hground : e.trail.level = 0)
    (hi : (!e.settings.incremental) = true) (hl : l.neg ∈ e.trail) : e.dead l :=
  ⟨by simpa using hi, hl, Nat.le_zero.1 (hground ▸ hv.levelOf_le (l := l.neg) hl)⟩

/-! ## Removals -/

/-- What a removal leaves is fit. -/
theorem fit_of_removal (hf : e.Fit R)
    (hrem : Removal e.network e.dead good R strengthened gone db s)
    (hunits : db.units = e.database.units) (h : e.afterSweep db s = .ok e') :
    e'.Fit R ∧ (good → e'.Watching) ∧ e.trail.Cleared e'.trail ∧ e'.store = s.store ∧
      e'.database = db ∧ e'.settings = e.settings ∧ e'.decisions = e.decisions := by
  obtain ⟨index, -, hline, rfl⟩ := afterSweep_eq_ok h
  have hc : e.trail.Cleared s.trail := hrem.thinned.trail
  have hs : Network.Sane { e.network with store := s.store, trail := s.trail, index := index }
      e.dead index.line := by
    rw [hline]
    exact ⟨hrem.sane.trail, hrem.sane.queued, hrem.sane.formed, hrem.sane.lines,
      hrem.sane.reasons, hrem.sane.dead_false⟩
  refine ⟨⟨hs.dead_mono (fun l ⟨hi, hl, hlev⟩ => ?_) fun l hl => hl.2.1, ?_, ?_, hrem.listed, ?_,
    hf.clean, ?_⟩, hrem.watching, hc, rfl, rfl, rfl, rfl⟩
  · exact ⟨hi, hc.mem_iff.2 hl, (hc.level l.var).trans hlev⟩
  · exact ⟨hrem.sound.stored, hrem.sound.ground⟩
  · exact fun w hw => hunits ▸ hf.units w hw
  · exact hf.ready.mono fun v hv => free_of_cleared hc ▸ hv
  · exact hc.varCount ▸ hf.marked

/-- Where only learnt clauses are removed, nothing is lost that a snapshot counts on. -/
theorem grown_of_removal (hl : e.database.Listed e.store)
    (hthin : e.network.Thinned e'.network strengthened gone) (hst : ¬ strengthened)
    (hgone : ∀ h c, gone h c → h ∈ e.database.learnts.toList)
    (hgiven : e'.database.given = e.database.given) (hunits : e'.database.units = e.database.units)
    (hserial : e'.database.nextSerial = e.database.nextSerial) : e.Grown e' where
  given := hgiven ▸ List.prefix_rfl
  units := hunits ▸ List.prefix_rfl
  serial := Nat.le_of_eq hserial.symm
  stored h hh c hc := by
    cases hc' : e'.store.get? h with
    | none =>
        have := (List.nodup_append.1 hl.nodup).2.2 h hh h (hgone h c (hthin.gone h c hc hc'))
        exact absurd rfl this
    | some c' =>
        obtain ⟨d, hd, -, -, -, heq⟩ := hthin.left h c' hc'
        obtain rfl := Option.some.inj (hc.symm.trans hd)
        exact ⟨c', rfl, heq hst ▸ .refl c'⟩
  old h c' hc' _ := by
    obtain ⟨c, hc, -, -, -, heq⟩ := hthin.left h c' hc'
    exact ⟨c, hc, heq hst ▸ .refl c'⟩

/-- Marking the lines does not add to what was removed. -/
theorem thinned_of_afterSweep (hthin : e.network.Thinned (s.network e.network) strengthened gone)
    (h : e.afterSweep db s = .ok e') : e.network.Thinned e'.network strengthened gone := by
  obtain ⟨index, -, hline, rfl⟩ := afterSweep_eq_ok h
  exact ⟨hthin.size, hthin.trail, hline, hthin.left, hthin.gone⟩

/-! ## Reducing -/

/-- Reducing keeps a fit engine fit and the trail as it is. -/
theorem reaches_of_reduce (hf : e.Fit R) (hw : good → e.Watching) (h : e.reduce = .ok e') :
    e.Reaches R e' ∧ e'.trail = e.trail ∧ (good → e'.Watching) := by
  rcases reduce_eq_ok h with rfl | ⟨db, s, e₁, hred, hsweep, rfl⟩
  · exact ⟨.refl hf, rfl, hw⟩
  · obtain ⟨hrem, htrail, hunits, hserial, hgiven, -⟩ :=
      removal_of_reduce hf.sane hf.sound hw hf.listed hred
    obtain ⟨hf₁, hw₁, hc, hstore, hdb, hset, hdec⟩ := fit_of_removal hf hrem hunits hsweep
    have hground : ∀ l ∈ e.trail, e.trail.levelOf l.var = 0 →
        l ∈ e₁.trail ∧ e₁.trail.levelOf l.var = 0 := fun l hl hlev =>
      ⟨hc.mem_iff.2 hl, (hc.level l.var).trans hlev⟩
    have hgrown : e.Grown e₁ := grown_of_removal hf.listed
      (thinned_of_afterSweep hrem.thinned hsweep) id (fun _ _ => id) (hdb ▸ hgiven) (hdb ▸ hunits)
      (hdb ▸ hserial)
    refine ⟨⟨⟨hf₁.sane, hf₁.sound, hf₁.units, hf₁.listed, hf₁.ready, hf₁.clean, hf₁.marked⟩,
      .of_grown hset (Nat.le_of_eq hc.varCount.symm)
        ⟨hgrown.given, hgrown.units, hgrown.serial, hgrown.stored, hgrown.old⟩ hground,
      hc.varCount, congrArg Decisions.decides hdec, fun hp l hl => ?_⟩, ?_, hw₁⟩
    · obtain ⟨hm, hlev⟩ := hp l (hunits ▸ hdb ▸ hl)
      exact hground l hm hlev
    · obtain ⟨index, -, -, rfl⟩ := afterSweep_eq_ok hsweep
      exact htrail

/-! ## Simplifying -/

/-- Outside the incremental mode the constraints that are left, and the literals of the ground
level, imply those that were there. -/
theorem problem_of_removeSatisfied (hl : e.database.Listed e.store)
    (hground : ∀ l ∈ e.trail, e.trail.levelOf l.var = 0)
    (hthin : e.network.Thinned e'.network strengthened
      (e.database.MayRemove e.trail strengthened))
    (hl' : e'.database.Listed e'.store)
    (hlearnts : ∀ h ∈ e'.database.learnts.toList, h ∈ e.database.learnts.toList)
    (hunits : e'.database.units = e.database.units) (hset : e'.settings = e.settings)
    (hi : e.settings.incremental = false) {w : World} (hw : e'.Problem w) : e.Problem w := by
  have hc : e.trail.Cleared e'.trail := hthin.trail
  have htrail : ∀ l ∈ e.trail, l.holds w = true := fun l hl =>
    hw.ground (hset ▸ hi) l (hc.mem_iff.2 hl) ((hc.level l.var).trans (hground l hl))
  refine ⟨fun h hh c hcs => ?_, fun l hl => hw.units l (hunits ▸ hl), fun _ l hl _ => htrail l hl⟩
  cases hcs' : e'.store.get? h with
  | none => exact (hthin.gone h c hcs hcs').2 w htrail
  | some c' =>
      obtain ⟨d, hd, -, -, himp, -⟩ := hthin.left h c' hcs'
      obtain rfl := Option.some.inj (hcs.symm.trans hd)
      -- a given constraint has not become a learnt one
      have hmem : h ∈ e'.database.given.toList :=
        (List.mem_append.1 (hl'.live h c' hcs')).resolve_right fun hm =>
          (List.nodup_append.1 hl.nodup).2.2 h hh h (hlearnts h hm) rfl
      exact himp w (hw.given h hmem c' hcs')

/-- Simplifying keeps a fit engine fit and clears reasons at most, and only at the ground level. -/
theorem reaches_of_simplify (hf : e.Fit R) (hw : good → e.Watching) (h : e.simplify = .ok e') :
    e.Reaches R e' ∧ e.trail.Cleared e'.trail ∧ (0 < e.trail.level → e'.trail = e.trail) ∧
      (good → e'.Watching) := by
  rcases simplify_eq_ok h with rfl | ⟨hlevel, db, s, e₁, d, hrs, hsweep, hrebuild, rfl⟩
  · exact ⟨.refl hf, .refl _, fun _ => rfl, hw⟩
  · have hground : ∀ l ∈ e.trail, e.trail.levelOf l.var = 0 := fun l hl =>
      Nat.le_zero.1 (hlevel ▸ hf.sane.trail.levelOf_le hl)
    obtain ⟨hrem, hunits, hserial, hgiven, -, hlearnts⟩ := removal_of_removeSatisfied hf.sane
      hf.sound hw hf.listed (fun hi _ => dead_of_ground hf.sane.trail hlevel hi) hrs
    obtain ⟨hf₁, hw₁, hc, hstore, hdb, hset, hdec⟩ := fit_of_removal hf hrem hunits hsweep
    have hthin := thinned_of_afterSweep hrem.thinned hsweep
    obtain ⟨hready, hdec'⟩ := Decisions.rebuild_ready hrebuild hf₁.ready.rated
      hf₁.ready.known.ordered
    have hstay : ∀ l ∈ e.trail, e.trail.levelOf l.var = 0 →
        l ∈ e₁.trail ∧ e₁.trail.levelOf l.var = 0 := fun l hl hlev =>
      ⟨hc.mem_iff.2 hl, (hc.level l.var).trans hlev⟩
    refine ⟨⟨⟨hf₁.sane, hf₁.sound, hf₁.units, hf₁.listed, hready, hf₁.clean,
      hf₁.marked⟩, ?_, hc.varCount,
      hdec'.trans (congrArg Decisions.decides hdec), fun hp l hl => ?_⟩, hc, fun hpos => ?_, hw₁⟩
    · cases hi : e.settings.incremental with
      | true =>
          have hno : (!e.settings.incremental) = false := by rw [hi]; rfl
          have hgrown : e.Grown e₁ := grown_of_removal hf.listed hthin
            (by rw [hno]; exact Bool.false_ne_true)
            (fun _ _ hg => hg.1.resolve_right (by rw [hno]; exact Bool.false_ne_true))
            (hdb ▸ hgiven hno) (hdb ▸ hunits) (hdb ▸ hserial)
          exact .of_grown hset (Nat.le_of_eq hc.varCount.symm) ⟨hgrown.given, hgrown.units,
            hgrown.serial, hgrown.stored, hgrown.old⟩ hstay
      -- outside the incremental mode the literals of the ground level belong to the problem
      | false =>
          refine ⟨hset, Nat.le_of_eq hc.varCount.symm, fun w hw => ?_, fun hyes => ?_⟩
          · have hw₁ : e₁.Problem w := ⟨hw.given, hw.units, hw.ground⟩
            exact problem_of_removeSatisfied hf.listed hground hthin hf₁.listed
              (hdb ▸ hlearnts) (hdb ▸ hunits) hset hi hw₁
          · rw [hi] at hyes
            cases hyes
    · obtain ⟨hm, hlev⟩ := hp l (hunits ▸ hdb ▸ hl)
      exact hstay l hm hlev
    · omega

end Engine

end CardSat
