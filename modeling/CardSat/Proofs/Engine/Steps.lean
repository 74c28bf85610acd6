import CardSat.Proofs.Engine

set_option autoImplicit false

/-! # The steps of a search

Propagating, going back, deciding, analysing a conflict and learning from it: what each of them does
to a fit engine, and whether it forgets a constraint. Going back below the level of a conflict is
what makes up for it; at the ground level there is no such level.

Each operation is opened once, by an equation that says what it leaves (`propagate_eq_ok`,
`cancelUntil_eq_ok` and so on). The theorems after it say that the engine reaches the result
(`Engine.Reaches`) and under what condition it watches its constraints; what a longer operation
needs of a step is found there, and it does not look at the operation again.
-/

namespace CardSat

namespace Engine

variable {e e' : Engine} {R : World → Prop} {good : Prop} {l : Lit}

/-! ## The operations

Each operation is taken apart once.
-/

/-- Propagation is that of the network. -/
theorem propagate_eq_ok {failed : Option Handle} : e.propagate = .ok (failed, e') ↔
    ∃ n, e.network.propagate = .ok (failed, n) ∧ e' = { e with network := n } := by
  simp only [propagate, bind_eq_ok, pure_eq_ok, Prod.mk.injEq]
  constructor
  · rintro ⟨⟨failed', n⟩, hn, rfl, rfl⟩
    exact ⟨n, hn, rfl⟩
  · rintro ⟨n, hn, rfl⟩
    exact ⟨(failed, n), hn, rfl, rfl⟩

/-- Going back rewinds the trail and takes back what was rewound. -/
theorem cancelUntil_eq_ok {b : Nat} : e.cancelUntil b = .ok e' ↔
    ∃ d, (e.trail.rewind b).1.foldlM (fun (d : Decisions) p => d.takeBack p.2 (p.1 = e.trail.level))
        e.decisions = .ok d ∧
      e' = { e with
        network := { e.network with trail := (e.trail.rewind b).2 }, decisions := d } := by
  simp only [cancelUntil, bind_eq_ok, pure_eq_ok]
  exact exists_congr fun _ => and_congr_right fun _ => eq_comm

/-- A decision opens a level and assigns its literal. -/
theorem decideLit_eq_ok : e.decideLit l = .ok e' ↔
    ∃ t, e.trail.openLevel.assign l none = .ok t ∧
      e' = { e with network := { e.network with trail := t } } := by
  simp only [decideLit, bind_eq_ok, pure_eq_ok]
  exact exists_congr fun _ => and_congr_right fun _ => eq_comm

/-- Assigning changes the trail only, whatever the reason is. -/
theorem assign_eq_ok {reason : Option Handle} : e.assign l reason = .ok e' ↔
    ∃ t, e.trail.assign l reason = .ok t ∧
      e' = { e with network := { e.network with trail := t } } := by
  simp only [assign, bind_eq_ok, pure_eq_ok]
  exact exists_congr fun _ => and_congr_right fun _ => eq_comm

/-- An analysis changes activities only. -/
theorem analyze_eq_ok {failed : Handle} {lesson : Lesson}
    (h : e.analyze failed = .ok (lesson, e')) :
    ∃ x a d db store, e.analysis.analyze e.store e.trail failed = .ok (x, a) ∧
      x.vars.foldlM Decisions.bump e.decisions = .ok d ∧ e.database.SameLists db ∧
      e.store.Relabels store ∧ lesson = x.lesson ∧ e' = { e with
        network := { e.network with store }, database := db, decisions := d, analysis := a } := by
  simp only [analyze, bind_eq_ok, pure_eq_ok, Prod.mk.injEq] at h
  obtain ⟨⟨x, a⟩, hx, d, hd, ⟨db, store⟩, hfold, rfl, rfl⟩ := h
  obtain ⟨hdb, hrel⟩ : e.database.SameLists db ∧ e.store.Relabels store :=
    foldlM_ok (fun _ (p : Database × Store) => e.database.SameLists p.1 ∧ e.store.Relabels p.2)
      (fun _ _ _ _ h₁ h₂ =>
        let h₃ := Database.relabels_of_bump h₂
        ⟨h₁.1.trans h₃.1, h₁.2.trans h₃.2⟩)
      ⟨.refl _, .refl _⟩ hfold
  exact ⟨x, a, d, db, store, hx, hd, hdb, hrel, rfl, rfl⟩

/-- Counting a conflict changes the limit, and it may be reported. -/
theorem exists_countTowardsLimit (e : Engine) :
    ∃ limit journal, e.countTowardsLimit = { e with learntLimit := limit, journal := journal } := by
  rw [countTowardsLimit]
  rcases e.learntLimit.count with ⟨_ | _, limit⟩
  · exact ⟨limit, _, rfl⟩
  · exact ⟨limit, _, rfl⟩

/-! ## Propagating -/

/-- What a propagation ends with. -/
structure Propagated (R : World → Prop) (good : Prop) (e : Engine) (failed : Option Handle)
    (e' : Engine) : Prop where
  reaches : e.Reaches R e'
  longer : e.trail.Extends e'.trail
  forced : ∀ m ∈ e'.trail, m ∈ e.trail ∨ ∃ a, e'.trail.reasonOf m.var = some a
  idle : e'.Idle
  watching : failed = none → good → e'.Watching
  conflict : ∀ h, failed = some h → e'.network.Conflict h ∧ (good → e'.network.WatchingBelow)

/-- What propagation does to a fit engine. -/
theorem propagated_of_propagate {failed : Option Handle} (hf : e.Fit R) (hw : good → e.Watching)
    (h : e.propagate = .ok (failed, e')) : e.Propagated R good failed e' := by
  obtain ⟨n, hn, rfl⟩ := propagate_eq_ok.1 h
  -- unless all is good, a constraint may be forgotten under any key
  have hslack : e.network.Watching fun _ _ => ¬ good := by
    by_cases hg : good
    · exact (hw hg).mono fun _ _ _ _ _ _ hno => hno.elim
    · exact fun _ _ _ _ _ _ => Or.inl hg
  obtain ⟨hp, hidle⟩ := Network.propagated_of_propagate hf.sane hf.sound hslack hn
  have hlonger := hp.advances.trail
  refine ⟨.of_network hf hp.sane hp.sound hlonger.varCount hp.advances.store fun l hl =>
    ⟨hlonger.mem hl, hlonger.levelOf hl⟩, hlonger, hp.advances.forced, hidle, fun hnone hg => ?_,
    fun h hh => ⟨(hp.conflict h hh).1, fun hg => ?_⟩⟩
  · exact (hp.watching hnone).mono fun _ _ _ _ _ _ hno => absurd hg hno
  · refine Network.Watching.below ((hp.conflict h hh).2.mono fun _ _ _ _ _ _ hdue =>
      Or.inl (hdue.resolve_left (not_not_intro hg))) hp.sane.trail hp.sane.queued fun _ _ => id

/-- If a constraint fails at the ground level, there is no world of interest. -/
theorem Propagated.absurd {h : Handle} (hp : e.Propagated R good (some h) e')
    (hground : e'.trail.level = 0) (w : World) : ¬ R w := by
  obtain ⟨⟨c, hc, hfalse, -⟩, -⟩ := hp.conflict h rfl
  exact hp.reaches.fit.sound.absurd_of_falsified hp.reaches.fit.sane hground hc hfalse w

/-! ## Going back -/

/-- Going back rewinds the trail of the network. -/
theorem network_of_cancelUntil {b : Nat} (h : e.cancelUntil b = .ok e') :
    e'.network = { e.network with trail := (e.trail.rewind b).2 } := by
  obtain ⟨d, -, rfl⟩ := cancelUntil_eq_ok.1 h
  rfl

/-- Going back rewinds the trail. -/
theorem trail_of_cancelUntil {b : Nat} (h : e.cancelUntil b = .ok e') :
    e'.trail = (e.trail.rewind b).2 := by
  rw [trail, network_of_cancelUntil h]

/-- What is true at the ground level stays true. -/
theorem ground_rewind (hv : e.trail.Valid) (b : Nat) (l : Lit) (hl : l ∈ e.trail)
    (hlev : e.trail.levelOf l.var = 0) :
    l ∈ (e.trail.rewind b).2 ∧ (e.trail.rewind b).2.levelOf l.var = 0 :=
  ⟨(Trail.mem_rewind hv).2 ⟨hl, Nat.le_trans (Nat.le_of_eq hlev) (Nat.zero_le b)⟩,
    by rw [Trail.levelOf_rewind, hlev]⟩

/-- The network stays sane. -/
theorem sane_of_cancelUntil {b : Nat} (hs : e.network.Sane e.dead e.network.index.line)
    (h : e.cancelUntil b = .ok e') : e'.network.Sane e'.dead e'.network.index.line := by
  obtain ⟨d, -, rfl⟩ := cancelUntil_eq_ok.1 h
  exact (hs.rewind b fun l hl => hl.2.2).dead_mono
    (fun l hl => ⟨hl.1, ground_rewind hs.trail b l.neg hl.2.1 hl.2.2⟩) fun l hl => hl.2.1

/-- A fit engine stays fit. -/
theorem reaches_of_cancelUntil {b : Nat} (hf : e.Fit R) (h : e.cancelUntil b = .ok e') :
    e.Reaches R e' := by
  have hs := sane_of_cancelUntil hf.sane h
  obtain ⟨d, hd, rfl⟩ := cancelUntil_eq_ok.1 h
  have hv := hf.sane.trail
  obtain ⟨hready, hdec⟩ := Decisions.foldlM_takeBack_ready (g := Prod.snd) hd hf.ready
  refine .of_same rfl (Trail.varCount_rewind _ _) (.refl _) (.refl _) (ground_rewind hv b) hdec
    { hf with
      sane := hs
      sound := hf.sound.rewind hv b
      ready := hready.mono fun v hfree => ?_
      marked := ?_ }
  · -- a variable that is free afterwards was free, or has been taken back
    rw [Trail.free_iff hs.trail] at hfree
    rw [Trail.free_iff hv]
    by_cases hex : ∃ l ∈ e.trail, l.var = v
    · obtain ⟨l, hl, rfl⟩ := hex
      have hmem : l ∈ (e.trail.rewind b).1.map Prod.snd := by
        rw [Trail.undone_rewind, List.mem_reverse]
        have hall : l ∈ e.trail.lits.toList.take (e.trail.levelEnd b) ++
            e.trail.lits.toList.drop (e.trail.levelEnd b) := by
          rw [List.take_append_drop]
          exact hl
        refine (List.mem_append.1 hall).resolve_left fun htake => hfree.2 l ?_ rfl
        rw [Trail.mem_def, Trail.lits_rewind]
        exact htake
      obtain ⟨a, ha, rfl⟩ := List.mem_map.1 hmem
      exact Or.inr ⟨a, ha, rfl⟩
    · refine Or.inl ⟨?_, fun l hl hlv => hex ⟨l, hl, hlv⟩⟩
      rw [← Trail.varCount_rewind e.trail b]
      exact hfree.1
  · exact (Trail.varCount_rewind e.trail b).symm ▸ hf.marked

/-- The level that was asked for is reached, unless it is above. -/
theorem level_of_cancelUntil {b : Nat} (h : e.cancelUntil b = .ok e') :
    e'.trail.level = min b e.trail.level := by
  rw [trail_of_cancelUntil h]
  exact Trail.level_rewind _ _

/-- Nothing waits where reasons are all that is lost. -/
theorem idle_of_cleared (hidle : e.Idle) (hc : e.trail.Cleared e'.trail) : e'.Idle := by
  rw [Idle, hc.head, hc.lits]
  exact hidle

/-- Nothing waits after going back if nothing did before. -/
theorem idle_of_cancelUntil {b : Nat} (hv : e.trail.Valid)
    (hidle : e.Idle) (h : e.cancelUntil b = .ok e') : e'.Idle := by
  rw [Idle, trail, network_of_cancelUntil h]
  rw [Trail.head_rewind, Trail.size_rewind hv, hidle]
  exact Nat.min_eq_right (hv.levelEnd_le b)

/-- Nothing is forgotten by going back. -/
theorem watching_of_cancelUntil {b : Nat} (hf : e.Fit R) (hw : e.Watching)
    (h : e.cancelUntil b = .ok e') : e'.Watching := by
  rw [Watching, network_of_cancelUntil h]
  exact hw.rewind hf.sane.trail hf.sane.queued b

/-- Going back below a conflict makes up for it. -/
theorem watching_of_cancelUntil_below {b : Nat} (hf : e.Fit R) (hw : e.network.WatchingBelow)
    (hb : b < e.trail.level) (h : e.cancelUntil b = .ok e') : e'.Watching := by
  rw [Watching, network_of_cancelUntil h]
  exact hw.rewind hf.sane.trail hb

/-! ## Assigning -/

/-- To decide a literal is to assign it on a level of its own. -/
theorem assign_of_decideLit (h : e.decideLit l = .ok e') :
    assign { e with network := { e.network with trail := e.trail.openLevel } } l none = .ok e' := by
  obtain ⟨t, ht, rfl⟩ := decideLit_eq_ok.1 h
  exact assign_eq_ok.2 ⟨t, ht, rfl⟩

/-- A literal becomes true. Its reason, if it has one, explains it. -/
theorem reaches_of_assign {r : Option Handle} (hf : e.Fit R)
    (hr : ∀ t, e.trail.Assigned l r t → ∀ a, r = some a →
      ∃ c, e.store.get? a = some c ∧ c.Explains t e.trail.lits.toList l)
    (hl : e.trail.level = 0 → ∀ w, R w → l.holds w = true) (h : e.assign l r = .ok e') :
    e.Reaches R e' ∧ e.trail.Assigned l r e'.trail ∧ e'.store = e.store ∧
      ∀ due, e.network.Watching due → e'.network.Watching due := by
  obtain ⟨t, ht, rfl⟩ := assign_eq_ok.1 h
  have ha := Trail.assigned_of_assign ht
  have hx := ha.extends hf.sane.trail
  exact ⟨.of_network hf (hf.sane.assign ha (hr t ha)) (hf.sound.assign hf.sane.trail ha hl)
    hx.varCount (.refl _) fun m hm => ⟨hx.mem hm, hx.levelOf hm⟩, ha, rfl,
    fun _ hw => hw.extend hf.sane.trail hx ha.head⟩

/-- Opening a level changes nothing that matters. -/
theorem reaches_of_openLevel (hf : e.Fit R) (hidle : e.Idle) :
    e.Reaches R { e with network := { e.network with trail := e.trail.openLevel } } :=
  .of_network hf (hf.sane.openLevel hidle)
    (hf.sound.of_trail rfl fun _ hl hlev => ⟨hl, hlev⟩) rfl (.refl _) fun _ hl => ⟨hl, rfl⟩

/-- A decision is a literal on a level of its own. -/
theorem reaches_of_decideLit (hf : e.Fit R) (hidle : e.Idle)
    (h : e.decideLit l = .ok e') :
    e.Reaches R e' ∧ e.trail.openLevel.Assigned l none e'.trail ∧ (e.Watching → e'.Watching) := by
  have hopen := reaches_of_openLevel hf hidle
  obtain ⟨hr, ha, -, hw⟩ := reaches_of_assign hopen.fit (by simp)
    (fun hlev => by rw [Trail.level_openLevel] at hlev; cases hlev) (assign_of_decideLit h)
  exact ⟨hopen.trans hr, ha, fun hw₀ => hw _ hw₀.openLevel⟩

/-! ## Analysing a conflict -/

/-- The analysis changes activities, and what it finds is right. -/
theorem reaches_of_analyze {failed : Handle} {lesson : Lesson} (hf : e.Fit R)
    (hconf : e.network.Conflict failed) (h : e.analyze failed = .ok (lesson, e')) :
    e.Reaches R e' ∧ lesson.Right e.trail R ∧ e.store.Relabels e'.store ∧
      e'.network = { e.network with store := e'.store } := by
  obtain ⟨x, a, d, db, store, hx, hd, hdb, hrel, rfl, rfl⟩ := analyze_eq_ok h
  obtain ⟨hright, hclean⟩ :=
    Analysis.lesson_of_analyze hf.sane.justified hf.sound hconf hf.clean hx
  obtain ⟨hready, hdec⟩ := Decisions.foldlM_bump_ready hd hf.ready
  refine ⟨.of_same rfl rfl hdb hrel.same (fun _ hl hlev => ⟨hl, hlev⟩) hdec ?_, hright, hrel, rfl⟩
  exact
    { sane := hf.sane.relabels hrel
      sound := hf.sound.relabels hrel
      units := fun w hw => by
        rw [hdb.units]
        exact hf.units w hw
      listed := hf.listed.same hdb hrel.same
      ready := hready
      clean := hclean
      marked := Analysis.covers_of_analyze hf.marked hx }

end Engine

end CardSat
