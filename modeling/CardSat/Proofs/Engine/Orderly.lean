import CardSat.Proofs.Database.Counts
import CardSat.Proofs.Engine.Implying
import CardSat.Proofs.Engine.Rounds
import CardSat.Proofs.Propagation.Returning

set_option autoImplicit false

/-! # Engines in order

An engine is `Orderly` if its tables are complete: the watch lines are tended, every constraint on a
list is stored, the counts are those of the lists, and exactly the known variables can be decided or
not. This is what keeps propagation and going back to a snapshot from being refused. It says nothing
about worlds, and every step of an engine keeps it.

Steps that only touch the trail, activities and counters keep it for one reason
(`Orderly.of_lists`); propagating, storing, sweeping and adding a variable have lemmas of their own.

## How the rest is put together

A call is a sequence of such steps, and a search is a loop of them, so the lemmas about calls and
rounds repeat the course of the operation and cite the lemma of each step. Some of the steps need
more than order to be what they are: a sweep removes what it should only in an engine that is fit.
There the lemma takes the invariant of the search as a hypothesis, which is known in every round
from elsewhere.
-/

namespace CardSat

namespace Engine

open Database

variable {e e' e₀ : Engine} {R : World → Prop} {good : Prop} {l : Lit} {lits : List Lit}
  {task : Task} {h : Handle}

/-- The tables of an engine are complete. -/
structure Orderly (e : Engine) : Prop where
  tended : e.network.Tended
  stored : ∀ h ∈ e.database.given.toList ++ e.database.learnts.toList,
    ∃ c, e.store.get? h = some c
  tallied : e.database.Tallied e.store
  known : ∀ v : Var, (e.decisions.decides v).isSome = true ↔ v.index < e.trail.varCount

namespace Orderly

/-- The number of given constraints is the length of their list. -/
theorem counted (ho : e.Orderly) (_ : e.settings.incremental = true) :
    e.database.counts.given = e.database.given.size := ho.tallied.given

/-- A step that leaves the lists alone, and the constraints but for the order of their literals. -/
theorem of_lists (ho : e.Orderly) (hr : e.Reaches R e') (ht : e'.network.Tended)
    (hsame : e.store.Same e'.store)
    (hgiven : e'.database.given = e.database.given)
    (hlearnts : e'.database.learnts = e.database.learnts)
    (hcounts : e'.database.counts = e.database.counts) : e'.Orderly where
  tended := ht
  stored a ha := by
    rw [hgiven, hlearnts] at ha
    obtain ⟨c, hc⟩ := ho.stored a ha
    obtain ⟨c', hc', -⟩ := hsame.forth a c hc
    exact ⟨c', hc'⟩
  tallied := ho.tallied.congr hgiven hlearnts hcounts hsame.litCount_eq
  known v := by
    rw [hr.decides, hr.varCount]
    exact ho.known v

/-- A step that changes nothing of the network but its trail. -/
theorem of_trail (ho : e.Orderly) (hr : e.Reaches R e')
    (hnetwork : ∃ t, e'.network = { e.network with trail := t })
    (hdb : e'.database.given = e.database.given ∧ e'.database.learnts = e.database.learnts ∧
      e'.database.counts = e.database.counts) : e'.Orderly := by
  obtain ⟨t, hn⟩ := hnetwork
  have hcount : t.varCount = e.trail.varCount := by
    rw [← hr.varCount, trail, hn]
  refine ho.of_lists hr ?_ ?_ hdb.1 hdb.2.1 hdb.2.2
  · rw [hn]
    exact ho.tended.of_trail hcount
  · rw [store, store, hn]
    exact .refl _

end Orderly

/-! ## Propagating -/

/-- Propagating is never refused, and leaves an engine in order. -/
theorem returns_of_propagate (hf : e.Fit R) (ho : e.Orderly) :
    ∃ failed e', e.propagate = .ok (failed, e') ∧ e'.Orderly := by
  obtain ⟨failed, n, hn, ht⟩ := Network.returns_of_propagate hf.sane hf.sound ho.tended
  have hprop : e.propagate = .ok (failed, { e with network := n }) := by
    exact propagate_eq_ok.2 ⟨n, hn, rfl⟩
  have hp : e.Propagated R False failed { e with network := n } :=
    propagated_of_propagate hf False.elim hprop
  have hn' : Network.Propagated e.dead (fun _ => True) R e.network failed n ∧ _ :=
    Network.propagated_of_propagate hf.sane hf.sound (Network.watching_all _) hn
  exact ⟨failed, _, hprop, ho.of_lists hp.reaches ht hn'.1.advances.store rfl rfl rfl⟩

/-- Propagation leaves an engine in order. -/
theorem orderly_of_propagate {failed : Option Handle} (hf : e.Fit R) (ho : e.Orderly)
    (h : e.propagate = .ok (failed, e')) : e'.Orderly := by
  obtain ⟨failed', e'', h', ho'⟩ := returns_of_propagate hf ho
  obtain ⟨rfl, rfl⟩ := Prod.mk.inj (Except.ok.inj (h'.symm.trans h))
  exact ho'

/-! ## Going back and deciding -/

/-- Going back leaves an engine in order. -/
theorem orderly_of_cancelUntil {b : Nat} (hf : e.Fit R) (ho : e.Orderly)
    (h : e.cancelUntil b = .ok e') : e'.Orderly := by
  refine ho.of_trail (reaches_of_cancelUntil hf h) ⟨_, network_of_cancelUntil h⟩ ?_
  obtain ⟨d, -, rfl⟩ := cancelUntil_eq_ok.1 h
  exact ⟨rfl, rfl, rfl⟩

/-- Opening a level leaves an engine in order. -/
theorem Orderly.openLevel (ho : e.Orderly) :
    Orderly { e with network := { e.network with trail := e.trail.openLevel } } :=
  ⟨ho.tended.of_trail rfl, ho.stored, ho.tallied, ho.known⟩

/-- Counters, settings of the search and events do not matter. -/
theorem Orderly.bookkeeping (ho : e.Orderly) {a : Analysis} {d : Decisions} {g : LearntLimit}
    {last : LastSimplified} {solves starts decided conflicts : Nat} {journal : Array Event}
    {db : Database} (hdec : d.decides = e.decisions.decides)
    (hdb : db.given = e.database.given ∧ db.learnts = e.database.learnts ∧
      db.counts = e.database.counts) :
    Orderly { e with
      database := db, analysis := a, decisions := d, learntLimit := g, lastSimplified := last
      solves := solves, starts := starts, decided := decided, conflicts := conflicts
      journal := journal } where
  tended := ho.tended
  stored h hh := ho.stored h (hdb.1 ▸ hdb.2.1 ▸ hh)
  tallied := ho.tallied.congr hdb.1 hdb.2.1 hdb.2.2 rfl
  known v := by
    rw [hdec]
    exact ho.known v

/-- Assigning a literal leaves an engine in order. -/
theorem Orderly.assigned (ho : e.Orderly) {reason : Option Handle}
    (h : e.assign l reason = .ok e') : e'.Orderly := by
  obtain ⟨t, ht, rfl⟩ := assign_eq_ok.1 h
  have hcount : t.varCount = e.trail.varCount := (Trail.assigned_of_assign ht).varCount
  exact ⟨ho.tended.of_trail hcount, ho.stored, ho.tallied, fun v => by
    rw [ho.known v]
    exact iff_of_eq (congrArg (v.index < ·) hcount.symm)⟩

/-- So does a decision. -/
theorem orderly_of_decideLit (ho : e.Orderly) (h : e.decideLit l = .ok e') : e'.Orderly :=
  ho.openLevel.assigned (assign_of_decideLit h)

/-- So does making literals false. -/
theorem orderly_of_refute {b : Bool} (ho : e.Orderly) (h : e.refute lits = .ok (b, e')) :
    e'.Orderly := by
  induction lits generalizing e with
  | nil =>
      rw [refute] at h
      rw [← (Prod.mk.inj (pure_eq_ok.1 h)).2]
      exact ho
  | cons l rest ih =>
      simp only [refute, bind_eq_ok] at h
      obtain ⟨x, -, h⟩ := h
      cases x with
      | yes =>
          rw [← (Prod.mk.inj (pure_eq_ok.1 h)).2]
          exact ho
      | no => exact ih ho h
      | unset =>
          simp only [bind_eq_ok] at h
          obtain ⟨e₁, hassign, h⟩ := h
          exact ih (ho.assigned hassign) h

/-- So does the test for an implied clause. -/
theorem orderly_of_implies {b : Bool} (hf : e.Fit R) (hidle : e.Idle) (ho : e.Orderly)
    (h : e.implies lits = .ok (b, e')) : e'.Orderly := by
  have hopen := reaches_of_openLevel hf hidle
  simp only [implies, bind_eq_ok] at h
  obtain ⟨_, -, ⟨found, e₁⟩, hrefute, h⟩ := h
  have hr₁ := refuted_of_refute hopen.fit (by rw [trail, Trail.level_openLevel]; omega) hrefute
  have hf₁ := hr₁.reaches.fit
  have ho₁ := orderly_of_refute ho.openLevel hrefute
  cases found with
  | true =>
      simp only [bind_eq_ok, pure_eq_ok, Prod.mk.injEq] at h
      obtain ⟨e₂, hcancel, -, rfl⟩ := h
      exact orderly_of_cancelUntil hf₁ ho₁ hcancel
  | false =>
      simp only [bind_eq_ok, pure_eq_ok, Prod.mk.injEq] at h
      obtain ⟨⟨failed, e₂⟩, hprop, e₃, hcancel, -, rfl⟩ := h
      have hp : e₁.Propagated R False failed e₂ := propagated_of_propagate hf₁ False.elim hprop
      exact orderly_of_cancelUntil hp.reaches.fit (orderly_of_propagate hf₁ ho₁ hprop) hcancel

/-- So does going through the assumptions. -/
theorem orderly_of_chooseAssumption {as : Array Lit} {n : Nat} {o : Option Choosing}
    (ho : e.Orderly) (h : chooseAssumption as n e = .ok (o, e')) : e'.Orderly := by
  induction n generalizing e with
  | zero =>
      simp only [chooseAssumption, pure_eq_ok, Prod.mk.injEq] at h
      exact h.2 ▸ ho
  | succ n ih =>
      simp only [chooseAssumption] at h
      split at h
      next =>
          simp only [pure_eq_ok, Prod.mk.injEq] at h
          exact h.2 ▸ ho
      next p hp =>
          simp only [bind_eq_ok] at h
          obtain ⟨x, -, h⟩ := h
          split at h
          next => exact ih ho.openLevel h
          next =>
              simp only [bind_eq_ok, pure_eq_ok, Prod.mk.injEq] at h
              obtain ⟨_, -, -, rfl⟩ := h
              exact ho.bookkeeping rfl ⟨rfl, rfl, rfl⟩
          next =>
              simp only [pure_eq_ok, Prod.mk.injEq] at h
              exact h.2 ▸ ho

/-- So does choosing the next decision. -/
theorem orderly_of_choose {as : Array Lit} {c : Choosing} (hs : Searching R good as e₀ e)
    (hidle : e.Idle) (ho : e.Orderly) (h : e.choose as = .ok (c, e')) : e'.Orderly := by
  cases chooses_of_choose h with
  | assumed hassumed => exact orderly_of_chooseAssumption ho hassumed
  | complete hassumed hpick =>
      obtain ⟨hs₁, -⟩ := (chosen_of_chooseAssumption hs hidle (by omega) hassumed).1 rfl
      obtain ⟨hdec, -⟩ := Decisions.pick_ready hpick hs₁.reaches.fit.ready
      exact (orderly_of_chooseAssumption ho hassumed).bookkeeping hdec ⟨rfl, rfl, rfl⟩
  | decide hassumed hpick =>
      obtain ⟨hs₁, -⟩ := (chosen_of_chooseAssumption hs hidle (by omega) hassumed).1 rfl
      obtain ⟨hdec, -⟩ := Decisions.pick_ready hpick hs₁.reaches.fit.ready
      exact (orderly_of_chooseAssumption ho hassumed).bookkeeping hdec ⟨rfl, rfl, rfl⟩

/-! ## Learning -/

/-- The analysis of a conflict bumps activities and leaves an engine in order. -/
theorem orderly_of_analyze {failed : Handle} {lesson : Lesson} (hf : e.Fit R) (ho : e.Orderly)
    (hconf : e.network.Conflict failed) (h : e.analyze failed = .ok (lesson, e')) :
    e'.Orderly := by
  obtain ⟨hr, -, hrel, hn⟩ := reaches_of_analyze hf hconf h
  have hdb : e.database.SameLists e'.database ∧ e'.database.counts = e.database.counts := by
    simp only [analyze, bind_eq_ok, pure_eq_ok, Prod.mk.injEq] at h
    obtain ⟨⟨x, a⟩, -, d, -, ⟨db, store⟩, hfold, -, rfl⟩ := h
    exact foldlM_ok (fun _ (p : Database × Store) =>
        e.database.SameLists p.1 ∧ p.1.counts = e.database.counts)
      (fun _ _ _ _ h₁ h₂ => ⟨h₁.1.trans (relabels_of_bump h₂).1, (counts_of_bump h₂).trans h₁.2⟩)
      ⟨.refl _, rfl⟩ hfold
  refine ho.of_lists hr ?_ hrel.same hdb.1.given hdb.1.learnts hdb.2
  rw [hn]
  exact ho.tended.same hrel.same

/-- A fact is noted and assigned. -/
theorem orderly_of_addFact (ho : e.Orderly) (h : e.addFact l = .ok e') : e'.Orderly :=
  (ho.bookkeeping (d := e.decisions) rfl ⟨rfl, rfl, rfl⟩ :
    Orderly { e with database := e.database.addUnit l }).assigned h

/-- Several facts are added one after another. -/
theorem orderly_of_addFacts {ls : List Lit} (ho : e.Orderly)
    (h : ls.foldlM (fun e l => addFact e l.neg) e = .ok e') : e'.Orderly :=
  foldlM_ok (fun _ e₁ => Orderly e₁) (fun _ _ _ _ h₁ h₂ => orderly_of_addFact h₁ h₂) ho h

/-- A given constraint is stored and put on watch. -/
theorem orderly_of_addGiven {kind : Kind} {as : Array Lit} {a : Handle} {db : Database}
    {store : Store} (hf : e.Fit R) (ho : e.Orderly) (hk : ∀ x k, kind ≠ .learnt x k)
    (hwf : (⟨kind, as⟩ : Constraint).WellFormed e.trail.varCount)
    (hadd : e.database.addGiven e.store kind as = .ok (a, db, store))
    (hw : { e with database := db, network := { e.network with store } }.watch a = .ok e') :
    e'.Orderly := by
  obtain ⟨c, index, hc, hindex, rfl⟩ := watch_eq_ok hw
  obtain ⟨ha, hl, hgiven, hlearnts, -⟩ := added_of_addGiven hk hf.listed hadd
  have hget : store.get? a = some ⟨kind, as⟩ := by rw [ha.get?, if_pos rfl]
  obtain rfl := Option.some.inj (hc.symm.trans hget)
  have hst := stores_of_added (n := e.network) ha hwf hindex
  refine ⟨ho.tended.stores hst (WatchIndex.sameMarks_watch hindex), fun b hb => ?_,
    tallied_of_addGiven hk hf.listed ho.tallied hadd, ho.known⟩
  · have hb' : b ∈ db.given.toList ++ db.learnts.toList := hb
    rw [hgiven, hlearnts, Array.toList_push, List.append_assoc, List.singleton_append,
      List.perm_middle.mem_iff, List.mem_cons] at hb'
    rcases hb' with rfl | hb'
    · exact ⟨_, hget⟩
    · obtain ⟨d, hd⟩ := ho.stored b hb'
      exact ⟨d, hst.get?_old hd⟩

/-- A learnt clause is stored, put on watch and made the reason of its first literal. -/
theorem orderly_of_learn {as : Array Lit} (hf : e.Fit R) (ho : e.Orderly)
    (hwf : as.size ≠ 1 → ∀ k, (⟨.learnt 0.0 k, as⟩ : Constraint).WellFormed e.trail.varCount)
    (h : e.learn l as = .ok e') : e'.Orderly := by
  rw [learn] at h
  split at h
  next => exact orderly_of_addFact ho h
  next hsize =>
      simp only [bind_eq_ok] at h
      obtain ⟨⟨a, db, store⟩, hlearn, e₁, hwatch, hassign⟩ := h
      obtain ⟨c, index, hc, hindex, rfl⟩ := watch_eq_ok hwatch
      obtain ⟨store₁, ha, hrel, -, hgiven, hlearnts, -⟩ := added_of_learn hf.listed hlearn
      refine Orderly.assigned (e := { e with
        database := db, network := { e.network with store, index } }) ⟨?_, fun b hb => ?_,
        tallied_of_learn hf.listed ho.tallied hlearn, ho.known⟩ hassign
      · obtain ⟨-, -, hindex₀, hst⟩ :=
          stores_of_relabels (n := e.network) ha hrel hc rfl (hwf hsize _) hindex
        exact (ho.tended.stores hst (WatchIndex.sameMarks_watch hindex₀)).same hrel.same
      -- bumping the new clause may scale the activities of the others, which stay stored
      · have hold : ∀ b d, e.store.get? b = some d → ∃ d', store.get? b = some d' := fun b d hd => by
          have hb₁ : b ≠ a := by
            rintro rfl
            exact hf.listed.not_mem_fresh ha.fresh (hf.listed.live b d hd)
          have hd₁ : store₁.get? b = some d := by rw [ha.get?, if_neg hb₁, hd]
          obtain ⟨d', hd', -⟩ := hrel.forth b d hd₁
          exact ⟨d', hd'⟩
        have hb' : b ∈ db.given.toList ++ db.learnts.toList := hb
        rw [hgiven, hlearnts, Array.toList_push, ← List.append_assoc] at hb'
        rcases List.mem_append.1 hb' with hb' | hb'
        · obtain ⟨d, hd⟩ := ho.stored b hb'
          exact hold b d hd
        · exact ⟨c, List.mem_singleton.1 hb' ▸ hc⟩

/-- Decaying activities leaves an engine in order. -/
theorem Orderly.decay (ho : e.Orderly) : e.decay.countTowardsLimit.Orderly := by
  obtain ⟨_, _, hcount⟩ := exists_countTowardsLimit e.decay
  rw [hcount]
  exact ho.bookkeeping rfl ⟨rfl, rfl, rfl⟩

/-- Learning from a conflict leaves an engine in order. -/
theorem orderly_of_learnFrom {as : Array Lit} {b : Bool} (hb : Broken R good as e₀ e h)
    (ho : e.Orderly) (hl : e.learnFrom h = .ok (b, e')) : e'.Orderly := by
  have hf := hb.reaches.fit
  cases learnsFrom_of_learnFrom hl with
  | unsatisfiable hanalyze => exact orderly_of_analyze hf ho hb.conflict hanalyze
  | unit hanalyze hcancel hlearn =>
      obtain ⟨hr₁, -⟩ := reaches_of_analyze hf hb.conflict hanalyze
      have ho₁ := orderly_of_analyze hf ho hb.conflict hanalyze
      rw [learn_singleton] at hlearn
      exact (orderly_of_addFact (orderly_of_cancelUntil hr₁.fit ho₁ hcancel) hlearn).decay
  | @clause e₁ e₂ e₃ level ls l hanalyze hcancel hfirst hlearn =>
      obtain ⟨hr₁, ⟨hassert, -⟩, -, hn₁⟩ := reaches_of_analyze hf hb.conflict hanalyze
      have ho₁ := orderly_of_analyze hf ho hb.conflict hanalyze
      have hr₂ := reaches_of_cancelUntil hr₁.fit hcancel
      have hforce := forcing_of_cancelUntil hassert hf.sane.trail (by rw [trail, hn₁]) hcancel hfirst
      exact (orderly_of_learn hr₂.fit (orderly_of_cancelUntil hr₁.fit ho₁ hcancel)
        (fun _ k => hforce.wellFormed hr₂.fit.sane.trail (by simp)) hlearn).decay

/-! ## Sweeping -/

/-- What a sweep leaves is in order. -/
theorem orderly_of_removal {strengthened : Prop} {gone : Handle → Constraint → Prop}
    {db : Database} {s : Sweep} (hf : e.Fit R) (ho : e.Orderly)
    (hrem : Removal e.network e.dead good R strengthened gone db s)
    (hsub : ∀ a ∈ db.given.toList ++ db.learnts.toList,
      a ∈ e.database.given.toList ++ e.database.learnts.toList)
    (ht : db.Tallied s.store)
    (h : e.afterSweep db s = .ok e') : e'.Orderly := by
  obtain ⟨index, hfold, -, rfl⟩ := afterSweep_eq_ok h
  have hc : e.trail.Cleared s.trail := hrem.thinned.trail
  refine ⟨ho.tended.markStale hf.sane.lines hc.varCount (fun a c hac hno => ?_) hfold, fun a ha => ?_,
    ht, fun v => (ho.known v).trans (iff_of_eq (congrArg (v.index < ·) hc.varCount.symm))⟩
  · exact ⟨c, hrem.accounted a c hac hno, rfl⟩
  · exact hrem.stored a ha (ho.stored a (hsub a ha))

/-- Giving up learnt clauses leaves an engine in order. -/
theorem orderly_of_reduce (hf : e.Fit R) (ho : e.Orderly) (h : e.reduce = .ok e') :
    e'.Orderly := by
  rcases reduce_eq_ok h with rfl | ⟨db, s, e₁, hred, hsweep, rfl⟩
  · exact ho
  · have hno : False → e.network.Watching fun _ _ => False := False.elim
    obtain ⟨hrem, -, -, -, hgiven, hlearnts⟩ :=
      removal_of_reduce hf.sane hf.sound hno hf.listed hred
    refine (orderly_of_removal hf ho hrem (fun a ha => ?_)
      (tallied_of_reduce hf.listed ho.tallied hred) hsweep).bookkeeping rfl ⟨rfl, rfl, rfl⟩
    rw [hgiven] at ha
    exact List.mem_append.2 ((List.mem_append.1 ha).imp_right (hlearnts a))

/-- Simplifying leaves an engine in order. -/
theorem orderly_of_simplify (hf : e.Fit R) (ho : e.Orderly) (h : e.simplify = .ok e') :
    e'.Orderly := by
  rcases simplify_eq_ok h with rfl | ⟨hlevel, db, s, e₁, d, hrs, hsweep, hrebuild, rfl⟩
  · exact ho
  · have hno : False → e.network.Watching fun _ _ => False := False.elim
    obtain ⟨hrem, -, -, -, hgivens, hlearnts⟩ := removal_of_removeSatisfied hf.sane hf.sound
      hno hf.listed (fun hi _ => dead_of_ground hf.sane.trail hlevel hi) hrs
    have ho₁ := orderly_of_removal hf ho hrem
      (fun a ha => List.mem_append.2 ((List.mem_append.1 ha).imp (hgivens a) (hlearnts a)))
      (tallied_of_removeSatisfied hf.listed ho.tallied hrs) hsweep
    exact ho₁.bookkeeping (Decisions.decides_of_rebuild hrebuild) ⟨rfl, rfl, rfl⟩

/-! ## Searching -/

/-- The bookkeeping at the start of a search does not matter. -/
theorem Orderly.opened (ho : e.Orderly) : e.opened.Orderly := ho.bookkeeping rfl ⟨rfl, rfl, rfl⟩

/-- Before a decision is made, constraints are simplified and forgotten. -/
theorem orderly_of_tidied {as : Array Lit} {e₁ e₂ e₃ e₄ : Engine} (hs : Searching R good as e₀ e₁)
    (ho : e₁.Orderly) (hprop : e₁.propagate = .ok (none, e₂)) (hsimp : e₂.simplify = .ok e₃)
    (hred : e₃.reduce = .ok e₄) : Searching R good as e₀ e₄ ∧ e₄.Idle ∧ e₄.Orderly := by
  obtain ⟨hidle, hnone, -⟩ := searching_of_propagate hs hprop
  obtain ⟨hs₂, hidle₂⟩ := searching_of_simplify (hnone rfl) hsimp
  obtain ⟨hs₃, hidle₃⟩ := searching_of_reduce hs₂ hred
  have ho₁ := orderly_of_propagate hs.reaches.fit ho hprop
  have ho₂ := orderly_of_simplify (hnone rfl).reaches.fit ho₁ hsimp
  exact ⟨hs₃, hidle₃ (hidle₂ hidle), orderly_of_reduce hs₂.reaches.fit ho₂ hred⟩

/-- In every round of a search the engine is in order. -/
theorem orderly_of_round (hs : Searching R good task.assumptions e₀ e) (ho : e.Orderly)
    (hr : Round task e e') : e'.Orderly := by
  induction hr with
  | first => exact ho
  | decide hr hprop hsimp hred hchoose hdecide ih =>
      obtain ⟨hs₁, hidle₁, ho₁⟩ := orderly_of_tidied (searching_of_round hs hr) ih hprop hsimp hred
      exact orderly_of_decideLit (orderly_of_choose hs₁ hidle₁ ho₁ hchoose) hdecide
  | learn hr hprop hlearn ih =>
      have hs₁ := searching_of_round hs hr
      have hb := ((searching_of_propagate hs₁ hprop).2.2 _ rfl).counted
      exact orderly_of_learnFrom hb ((orderly_of_propagate hs₁.reaches.fit ih hprop).bookkeeping rfl
        ⟨rfl, rfl, rfl⟩) hlearn
  | restart hr hprop hcancel ih =>
      have hs₁ := searching_of_round hs hr
      have hs₂ := (searching_of_propagate hs₁ hprop).2.1 rfl
      exact (orderly_of_cancelUntil hs₂.reaches.fit (orderly_of_propagate hs₁.reaches.fit ih hprop)
        hcancel).bookkeeping rfl ⟨rfl, rfl, rfl⟩

/-- In the round in which a search answers the engine stays in order. -/
theorem orderly_of_close {a : Answer} (hs : Searching R good task.assumptions e₀ e)
    (ho : e.Orderly) (hc : Close task e a e') : e'.Fit R ∧ e'.Orderly := by
  cases hc with
  | interrupted hprop hcancel =>
      have hs₁ := (searching_of_propagate hs hprop).2.1 rfl
      exact ⟨(reaches_of_cancelUntil hs₁.reaches.fit hcancel).fit,
        orderly_of_cancelUntil hs₁.reaches.fit (orderly_of_propagate hs.reaches.fit ho hprop) hcancel⟩
  | failed hprop hsimp hred hchoose =>
      obtain ⟨hs₁, hidle₁, ho₁⟩ := orderly_of_tidied hs ho hprop hsimp hred
      exact ⟨(chosen_of_choose hs₁ hidle₁ hchoose).1.reaches.fit,
        orderly_of_choose hs₁ hidle₁ ho₁ hchoose⟩
  | complete hprop hsimp hred hchoose =>
      obtain ⟨hs₁, hidle₁, ho₁⟩ := orderly_of_tidied hs ho hprop hsimp hred
      exact ⟨(chosen_of_choose hs₁ hidle₁ hchoose).1.reaches.fit,
        orderly_of_choose hs₁ hidle₁ ho₁ hchoose⟩
  | refuted hprop hlearn =>
      have hb := ((searching_of_propagate hs hprop).2.2 _ rfl).counted
      exact ⟨((searching_of_learnFrom hb hlearn).1 rfl).1.fit, orderly_of_learnFrom hb
        ((orderly_of_propagate hs.reaches.fit ho hprop).bookkeeping rfl ⟨rfl, rfl, rfl⟩) hlearn⟩
  | canceled hprop =>
      exact ⟨((searching_of_propagate hs hprop).2.2 _ rfl).counted.reaches.fit,
        (orderly_of_propagate hs.reaches.fit ho hprop).bookkeeping rfl ⟨rfl, rfl, rfl⟩⟩

/-- A search leaves an engine in order. -/
theorem orderly_of_search {σ : Type} {st st' : σ} {handler : Handler (StateM σ)}
    {restart : RestartStrategy} {budget : Budget} {as : List Lit} {a : Answer} (hf : e.Fit R)
    (ho : e.Orderly) (h : Returns (e.search restart budget handler as) st (a, e') st') :
    e'.Orderly := by
  obtain ⟨e₁, e₂, e₃, hround, hclose, hcancel, rfl⟩ := close_of_search h
  have hs : Searching R False (e.order restart budget as).assumptions e e.opened :=
    ⟨reaches_of_opened hf, .start e.trail as.toArray, False.elim⟩
  have ho₁ := orderly_of_round hs ho.opened hround
  obtain ⟨hf₂, ho₂⟩ := orderly_of_close (searching_of_round hs hround) ho₁ hclose
  exact (orderly_of_cancelUntil hf₂ ho₂ hcancel).bookkeeping rfl ⟨rfl, rfl, rfl⟩

end Engine

end CardSat
