import CardSat.Proofs.Engine.Implying
import CardSat.Proofs.Engine.Snapshot

set_option autoImplicit false

/-! # Going back to a snapshot

`discardSince` takes back every assignment and removes what is younger than a snapshot; what is left
is a `Cut`. Then `replay` assigns the facts that are left one after the other. If that succeeds the
engine is at rest again, with the problem that the snapshot stands for; otherwise this problem has
no world.

## How the proof goes

The parts of `discardSince` are given names once (`Discards`), and what each of them leaves is a
lemma about it. The trail is empty in between, so no literal is dead and no reason is needed, and
the removal of younger constraints is one from a sane network whatever the state was before. After
the cut the engine is fit for the worlds of the snapshot, and these are its problem as soon as the
replay has come to an end.

A replay is an induction on the facts, with a relation that takes one round apart (`ReplayStep`).
-/

namespace CardSat

namespace Engine

variable {e e' : Engine} {R : World → Prop} {s : Snapshot} {good : Prop} {b : Bool}

/-! ## Discarding -/

/-- The constraints that a truncation leaves are as old as the snapshot, and only younger ones
are gone. -/
theorem survives_of_removal {n : Network} {dead : Lit → Prop} {db db' : Database}
    {sw : Database.Sweep} (hstore : n.store = e.store) (hdb : db = e.database)
    (hl : db.Listed n.store)
    (hrem : Database.Removal n dead good R False (db.Younger s.clauses s.learnts) db' sw)
    (hgiven : db'.given = db.given.take s.clauses)
    (hserial : db'.nextSerial = min db.nextSerial s.learnts) :
    (∀ h ∈ e.database.given.toList.take s.clauses, ∀ c, e.store.get? h = some c →
      sw.store.get? h = some c) ∧
    ∀ h c, sw.store.get? h = some c → e.store.get? h = some c ∧ e.Survives s h c := by
  subst hdb
  have htake : (e.database.given.take s.clauses).toList =
      e.database.given.toList.take s.clauses := by simp [Array.toList_extract]
  have hsame : ∀ h c, sw.store.get? h = some c → n.store.get? h = some c := fun h c hc => by
    obtain ⟨d, hd, -, -, -, heq⟩ := hrem.thinned.left h c hc
    exact heq id ▸ hd
  constructor
  · intro h hh c hc
    rw [← hstore] at hc
    cases hc' : sw.store.get? h with
    | some d =>
        have := hsame h d hc'
        rw [← this, hc]
    | none =>
        -- a constraint that is old is neither among those dropped nor learnt
        rcases hrem.thinned.gone h c hc hc' with hdrop | ⟨k, hk, -⟩
        · have hnd := (List.nodup_append.1 hl.nodup).1
          rw [← List.take_append_drop s.clauses e.database.given.toList] at hnd
          exact absurd rfl ((List.nodup_append.1 hnd).2.2 h hh h hdrop)
        · have := hl.given h (List.mem_of_mem_take hh) c hc
          rw [Constraint.isLearnt] at this
          rw [Constraint.serial?] at hk
          cases hkind : c.kind <;> simp [hkind] at this hk
  · intro h c hc
    refine ⟨hstore ▸ hsame h c hc, ?_⟩
    rcases List.mem_append.1 (hrem.listed.live h c hc) with hmem | hmem
    · left
      rwa [hgiven, htake] at hmem
    · obtain ⟨k, hk, hlt⟩ := hrem.listed.learnts h hmem c hc
      rw [hserial] at hlt
      exact Or.inr ⟨k, hk, Nat.lt_of_lt_of_le hlt (Nat.min_le_right _ _)⟩

/-- The steps of `discardSince`: the values are taken back, the lists are truncated, what was
removed is not watched any more, and the younger variables are not decided any more. -/
structure Discards (s : Snapshot) (e : Engine) (d₁ : Decisions) (db : Database)
    (sw : Database.Sweep) (index : WatchIndex) (d₂ : Decisions) : Prop where
  undo : e.trail.rewindAll.1.foldlM (fun (d : Decisions) l => d.takeBack l true) e.decisions =
    .ok d₁
  truncate : e.database.truncate e.store e.trail.rewindAll.2 s.clauses s.learnts s.units =
    .ok (db, sw)
  unwatch : sw.removed.toList.foldlM (fun (w : WatchIndex) x => w.unwatch x.2 x.1)
    e.network.index = .ok index
  empty : sw.trail.lits = #[]
  forget : d₁.truncateVars s.vars { sw.trail with cells := sw.trail.cells.take s.vars } = .ok d₂

/-- The engine that they leave. -/
def discarded (e : Engine) (s : Snapshot) (db : Database) (sw : Database.Sweep)
    (index : WatchIndex) (d : Decisions) : Engine :=
  report { e with
    network := { e.network with
      store := sw.store, trail := { sw.trail with cells := sw.trail.cells.take s.vars }
      index := WatchIndex.truncateVars index s.vars }
    database := db
    analysis := e.analysis.truncateVars s.vars
    decisions := d
    lastSimplified := {} } (.rolledBack s.vars db.given.size db.learnts.size db.units.size)

/-- What is discarded part by part. -/
theorem discardSince_eq_ok (hs : e.Restorable s) : e.discardSince s = .ok e' ↔
    ∃ d₁ db sw index d₂, Discards s e d₁ db sw index d₂ ∧ e' = e.discarded s db sw index d₂ := by
  have hmin : min s.vars e.trail.rewindAll.2.varCount = s.vars := by
    rw [Trail.varCount_rewindAll]
    exact Nat.min_eq_left hs.vars
  simp only [discardSince, bind_eq_ok, pure_eq_ok, hmin]
  constructor
  · rintro ⟨d₁, hundo, ⟨db, sw⟩, htrunc, index, hindex, t, ht, d₂, hd₂, rfl⟩
    obtain ⟨hempty, rfl⟩ := Trail.truncateVars_eq_ok.1 ht
    rw [← Array.foldlM_toList] at hindex
    exact ⟨d₁, db, sw, index, d₂, ⟨hundo, htrunc, hindex, hempty, hd₂⟩, rfl⟩
  · rintro ⟨d₁, db, sw, index, d₂, h, rfl⟩
    have hunwatch := h.unwatch
    rw [Array.foldlM_toList] at hunwatch
    exact ⟨d₁, h.undo, (db, sw), h.truncate, index, hunwatch, _,
      Trail.truncateVars_eq_ok.2 ⟨h.empty, rfl⟩, d₂, h.forget, rfl⟩

section

variable {d₁ d₂ : Decisions} {db : Database} {sw : Database.Sweep} {index : WatchIndex}

/-- In the incremental mode no literal is given up. -/
theorem not_dead (hi : e.settings.incremental = true) (l : Lit) : ¬ e.dead l := fun ⟨hno, _⟩ => by
  rw [hi] at hno
  cases hno

/-- What is left when every value is taken back. -/
def emptied (e : Engine) : Network := { e.network with trail := e.trail.rewindAll.2 }

/-- With every assignment taken back the network is sane. -/
theorem Fit.emptied (hf : e.Fit R) (hi : e.settings.incremental = true) :
    e.emptied.Sane e.dead e.network.index.line := hf.sane.rewindAll (not_dead hi)

/-- What the truncation does, whatever held before. -/
theorem Discards.removal (h : Discards s e d₁ db sw index d₂)
    (hsane : e.emptied.Sane e.dead e.network.index.line) (hl : e.database.Listed e.store) :
    Database.Removal e.emptied e.dead False (fun _ => False)
      False (e.database.Younger s.clauses s.learnts) db sw ∧
      db.units = e.database.units.take s.units ∧
      db.nextSerial = min e.database.nextSerial s.learnts ∧
      db.given = e.database.given.take s.clauses ∧
      ∀ a ∈ db.learnts.toList, a ∈ e.database.learnts.toList :=
  Database.removal_of_truncate hsane ⟨by simp, by simp⟩ (fun hno : False => hno.elim) hl h.truncate

/-- The removal only clears reasons of the emptied trail. -/
theorem Discards.cleared (h : Discards s e d₁ db sw index d₂)
    (hsane : e.emptied.Sane e.dead e.network.index.line) (hl : e.database.Listed e.store) :
    e.trail.rewindAll.2.Cleared sw.trail := (h.removal hsane hl).1.thinned.trail

/-- The trail knows the variables of the snapshot afterwards. -/
theorem Discards.varCount (h : Discards s e d₁ db sw index d₂)
    (hsane : e.emptied.Sane e.dead e.network.index.line) (hl : e.database.Listed e.store)
    (hs : e.Restorable s) :
    sw.trail.varCount = e.trail.varCount ∧ (sw.trail.cells.take s.vars).size = s.vars := by
  have hcount : sw.trail.varCount = e.trail.varCount :=
    (h.cleared hsane hl).varCount.trans (Trail.varCount_rewindAll _)
  refine ⟨hcount, ?_⟩
  rw [Array.take_eq_extract, Array.size_extract, Nat.sub_zero]
  exact Nat.min_eq_left (Nat.le_trans hs.vars (Nat.le_of_eq hcount.symm))

/-- Taking back values and forgetting variables changes what may be decided for these variables
only. -/
theorem Discards.decides (h : Discards s e d₁ db sw index d₂) (hf : e.Fit R) (v : Var) :
    d₂.decides v = if v.index < s.vars then e.decisions.decides v else none := by
  obtain ⟨hready₁, hdec₁⟩ := Decisions.foldlM_takeBack_ready (g := id) h.undo hf.ready
  obtain ⟨-, hdec₂⟩ := Decisions.truncateVars_ready h.forget hready₁
  rw [hdec₂, hdec₁]

/-- The removed constraints are not watched. -/
theorem Discards.sane (h : Discards s e d₁ db sw index d₂)
    (hsane : e.emptied.Sane e.dead e.network.index.line) (hl : e.database.Listed e.store)
    (hi : e.settings.incremental = true) (hs : e.Restorable s) :
    (e.discarded s db sw index d₂).network.Sane e.dead
      (e.discarded s db sw index d₂).network.index.line := by
  obtain ⟨hrem, hunits, hserial, hgiven, -⟩ := h.removal hsane hl
  obtain ⟨-, hold⟩ := survives_of_removal (e := e) (s := s) (n := e.emptied) rfl rfl hl hrem hgiven
    hserial
  have hcount := (h.varCount hsane hl hs).1
  have hlines := WatchIndex.lines_of_unwatch_all hrem.removed h.unwatch
  have hswept : Network.Sane { e.network with store := sw.store, trail := sw.trail, index := index }
      e.dead index.line :=
    ⟨hrem.sane.trail, hrem.sane.queued, hrem.sane.formed,
      hrem.sane.lines.of_lines (fun a c hc l => (hlines l).2 a c hc) fun l => (hlines l).1,
      hrem.sane.reasons, hrem.sane.dead_false⟩
  exact hswept.truncateVars (Trail.truncateVars_eq_ok.2 ⟨h.empty, rfl⟩)
    (fun a c hc => hs.formed a c (hold a c hc).1 (hold a c hc).2) (hcount ▸ hs.vars) (not_dead hi)

/-- What is left but for the decisions, which follow their own course. -/
theorem Discards.cut (h : Discards s e d₁ db sw index d₂)
    (hsane : e.emptied.Sane e.dead e.network.index.line) (hl : e.database.Listed e.store)
    (hs : e.Restorable s) :
    Cut s e { e.discarded s db sw index d₂ with decisions := e.decisions } := by
  obtain ⟨hrem, hunits, hserial, hgiven, -⟩ := h.removal hsane hl
  obtain ⟨hstored, hold⟩ := survives_of_removal (e := e) (s := s) (n := e.emptied) rfl rfl hl hrem
    hgiven hserial
  refine ⟨rfl, (h.varCount hsane hl hs).2, ?_, ?_, ?_, hstored, hold, fun _ _ => rfl⟩
  · show db.given.toList = _
    simp [hgiven, Array.toList_extract]
  · show db.units.toList = _
    simp [hunits, Array.toList_extract]
  · show db.nextSerial = _
    rw [hserial]
    exact Nat.min_eq_right hs.learnts

end

/-- What is left of the engine is a cut, fit for the worlds of the snapshot and with an empty
trail. -/
theorem cut_of_discardSince (hf : e.Fit R) (hi : e.settings.incremental = true)
    (hs : e.Restorable s) (h : e.discardSince s = .ok e') :
    Cut s e e' ∧ e'.Fit (fun w => s.ok = true ∧ e.Kept s w) ∧ e'.trail.lits = #[] ∧
      e'.trail.head = 0 ∧ e'.trail.level = 0 := by
  obtain ⟨d₁, db, sw, index, d₂, hd, rfl⟩ := (discardSince_eq_ok hs).1 h
  have hsane := hf.emptied hi
  obtain ⟨hrem, hunits, -⟩ := hd.removal hsane hf.listed
  have hclear := hd.cleared hsane hf.listed
  have hcut := hd.cut hsane hf.listed hs
  obtain ⟨hready₁, -⟩ := Decisions.foldlM_takeBack_ready (g := id) hd.undo hf.ready
  obtain ⟨hready, -⟩ := Decisions.truncateVars_ready hd.forget hready₁
  -- nothing is on the trail until the units are replayed
  have hnone : ∀ l, l ∉ Trail.mk (sw.trail.cells.take s.vars) sw.trail.lits sw.trail.starts
      sw.trail.head := fun l hl => by
    simp [Trail.mem_def, hd.empty] at hl
  refine ⟨{ hcut with decides := fun v hv => ?_ }, ?_, hd.empty, hclear.head, hclear.level_eq⟩
  · show d₂.decides v = _
    rw [hd.decides hf, if_pos hv]
  · refine ⟨?_, ⟨fun w hw a c hc => ?_, fun w _ l hl => absurd hl (hnone l)⟩, fun w hw l hl => ?_,
      hrem.listed, hready, Marks.clean_truncate hf.clean _, ?_⟩
    · exact (hd.sane hsane hf.listed hi hs).dead_mono (fun l hl => absurd hl (not_dead hi l))
        fun l (hl : dead _ l) => hl.2.1
    · obtain ⟨hget, hsv⟩ := hcut.old a c hc
      exact hs.implied hw.1 w hw.2 a c hget hsv
    · have hl' : l ∈ db.units.toList := hl
      refine hw.2.units l ?_
      simpa [hunits, Array.toList_extract] using hl'
    · show SparseTable.Covers (e.analysis.marks.truncate s.vars) (sw.trail.cells.take s.vars).size
      rw [(hd.varCount hsane hf.listed hs).2]
      exact hf.marked.truncate hs.vars

/-! ## Replaying -/

/-- What replaying facts does. -/
structure Replayed (R : World → Prop) (facts : List Lit) (e : Engine) (b : Bool) (e' : Engine) :
    Prop where
  reaches : e.Reaches R e'
  ground : e'.trail.level = 0
  database : e'.database = e.database
  refuted : b = false → ∀ w, ¬ R w
  idle : b = true → e'.Idle
  placed : b = true → ∀ l, (l ∈ e.trail ∨ l ∈ facts) → l ∈ e'.trail
  watching : b = true → e'.Watching

/-- Propagation leaves the lists alone. -/
theorem database_of_propagate {failed : Option Handle} (h : e.propagate = .ok (failed, e')) :
    e'.database = e.database := by
  obtain ⟨_, -, rfl⟩ := propagate_eq_ok.1 h
  rfl

/-- A fact that is tried is true already, or false already, or it is assigned. -/
theorem tryAssign_eq_ok {l : Lit} {t : Trail} (hv : e.trail.Valid)
    (h : e.trail.tryAssign l none = .ok (b, t)) :
    (b = true ∧ l ∈ e.trail ∧ t = e.trail) ∨ (b = false ∧ l.neg ∈ e.trail ∧ t = e.trail) ∨
      b = true ∧ e.assign l none = .ok { e with network := { e.network with trail := t } } := by
  simp only [Trail.tryAssign, bind_eq_ok, Trail.value_eq_ok] at h
  obtain ⟨x, ⟨-, hx⟩, h⟩ := h
  cases x with
  | yes =>
      obtain ⟨rfl, rfl⟩ := Prod.mk.inj (pure_eq_ok.1 h)
      exact Or.inl ⟨rfl, (hv.truth_yes l).1 hx, rfl⟩
  | no =>
      obtain ⟨rfl, rfl⟩ := Prod.mk.inj (pure_eq_ok.1 h)
      exact Or.inr (Or.inl ⟨rfl, (hv.truth_no l).1 hx, rfl⟩)
  | unset =>
      simp only [bind_eq_ok, pure_eq_ok, Prod.mk.injEq] at h
      obtain ⟨t', ht, rfl, rfl⟩ := h
      refine Or.inr (Or.inr ⟨rfl, ?_⟩)
      exact assign_eq_ok.2 ⟨t', ht, rfl⟩

/-- What trying a fact at the ground level does; `b` is whether it holds then. -/
structure Tried (R : World → Prop) (l : Lit) (e : Engine) (b : Bool) (e' : Engine) : Prop where
  reaches : e.Reaches R e'
  ground : e'.trail.level = 0
  database : e'.database = e.database
  watching : e.Watching → e'.Watching
  yes : b = true → ∀ m, m ∈ e'.trail ↔ m ∈ e.trail ∨ m = l
  no : b = false → l.neg ∈ e.trail

/-- A fact is in place, or it is false and there is no world. -/
theorem tried_of_tryAssign {l : Lit} {t : Trail} (hf : e.Fit R) (hground : e.trail.level = 0)
    (hl : ∀ w, R w → l.holds w = true) (h : e.trail.tryAssign l none = .ok (b, t)) :
    Tried R l e b { e with network := { e.network with trail := t } } := by
  rcases tryAssign_eq_ok hf.sane.trail h with
    ⟨rfl, hmem, rfl⟩ | ⟨rfl, hmem, rfl⟩ | ⟨rfl, hassign⟩
  · exact ⟨.refl hf, hground, rfl, id, fun _ m => ⟨Or.inl, fun hm => hm.elim id (· ▸ hmem)⟩,
      by simp⟩
  · exact ⟨.refl hf, hground, rfl, id, by simp, fun _ => hmem⟩
  · obtain ⟨hr, ha, -, hw⟩ := reaches_of_assign hf (by simp) (fun _ => hl) hassign
    exact ⟨hr, ha.level_eq.trans hground, rfl, hw _, fun _ m => ha.mem_iff, by simp⟩

/-- How replaying a fact and then `rest` can go: the fact is false, it leads to a conflict, or the
others follow. -/
inductive ReplayStep (l : Lit) (rest : List Lit) (e : Engine) : Bool → Engine → Prop
  | refused {t : Trail} (htry : e.trail.tryAssign l none = .ok (false, t)) :
      ReplayStep l rest e false { e with network := { e.network with trail := t } }
  | failed {t : Trail} {a : Handle} {e₁ : Engine}
      (htry : e.trail.tryAssign l none = .ok (true, t))
      (hprop : propagate { e with network := { e.network with trail := t } } = .ok (some a, e₁)) :
      ReplayStep l rest e false e₁
  | next {t : Trail} {e₁ e' : Engine} {b : Bool}
      (htry : e.trail.tryAssign l none = .ok (true, t))
      (hprop : propagate { e with network := { e.network with trail := t } } = .ok (none, e₁))
      (h : replay rest e₁ = .ok (b, e')) : ReplayStep l rest e b e'

/-- One round of a replay. -/
theorem replay_cons_eq_ok {l : Lit} {rest : List Lit} :
    replay (l :: rest) e = .ok (b, e') ↔ ReplayStep l rest e b e' := by
  rw [replay, bind_eq_ok]
  constructor
  · rintro ⟨⟨holds, t⟩, htry, h⟩
    cases holds with
    | false =>
        obtain ⟨rfl, rfl⟩ := Prod.mk.inj (pure_eq_ok.1 h)
        exact .refused htry
    | true =>
        obtain ⟨⟨failed, e₁⟩, hprop, h⟩ := bind_eq_ok.1 h
        cases failed with
        | some a =>
            obtain ⟨rfl, rfl⟩ := Prod.mk.inj (pure_eq_ok.1 h)
            exact .failed htry hprop
        | none => exact .next htry hprop h
  · intro h
    cases h with
    | refused htry => exact ⟨_, htry, rfl⟩
    | failed htry hprop => exact ⟨_, htry, bind_eq_ok.2 ⟨_, hprop, rfl⟩⟩
    | next htry hprop h => exact ⟨_, htry, bind_eq_ok.2 ⟨_, hprop, h⟩⟩

/-- A replay that succeeds has all facts in place, and one that fails shows that there is no
world. -/
theorem replayed_of_replay : ∀ {facts : List Lit} {e : Engine}, e.Fit R → e.trail.level = 0 →
    e.Idle → e.Watching → (∀ w, R w → ∀ l ∈ facts, l.holds w = true) →
    replay facts e = .ok (b, e') → Replayed R facts e b e' := by
  intro facts
  induction facts with
  | nil =>
      intro e hf hground hidle hw _ h
      simp only [replay, pure_eq_ok, Prod.mk.injEq] at h
      obtain ⟨rfl, rfl⟩ := h
      exact ⟨.refl hf, hground, rfl, by simp, fun _ => hidle,
        fun _ l hl => hl.resolve_right (by simp), fun _ => hw⟩
  | cons l rest ih =>
      intro e hf hground hidle hw hR h
      have hl : ∀ w, R w → l.holds w = true := fun w hw => hR w hw l (by simp)
      cases replay_cons_eq_ok.1 h with
      | refused htry =>
          have ht := tried_of_tryAssign hf hground hl htry
          refine ⟨ht.reaches, ht.ground, ht.database, fun _ w hw => ?_, by simp, by simp, by simp⟩
          -- a fact that is false contradicts what holds at the ground level
          have hln : l.neg ∈ e.trail := ht.no rfl
          have hlevel := hf.sane.trail.levelOf_le hln
          have hholds := hf.sound.ground w hw _ hln (Nat.le_zero.1 (hground ▸ hlevel))
          rw [Lit.holds_neg, hl w hw] at hholds
          cases hholds
      | failed htry hprop =>
          have ht := tried_of_tryAssign hf hground hl htry
          have hp := propagated_of_propagate ht.reaches.fit (fun _ : True => ht.watching hw) hprop
          have hground₁ := hp.longer.level_eq.trans ht.ground
          exact ⟨ht.reaches.trans hp.reaches, hground₁,
            (database_of_propagate hprop).trans ht.database, fun _ => hp.absurd hground₁,
            by simp, by simp, by simp⟩
      | next htry hprop h =>
          have ht := tried_of_tryAssign hf hground hl htry
          have hp := propagated_of_propagate ht.reaches.fit (fun _ : True => ht.watching hw) hprop
          have hrest := ih hp.reaches.fit (hp.longer.level_eq.trans ht.ground) hp.idle
            (hp.watching rfl trivial) (fun w hw m hm => hR w hw m (List.mem_cons_of_mem l hm)) h
          refine ⟨(ht.reaches.trans hp.reaches).trans hrest.reaches, hrest.ground,
            hrest.database.trans ((database_of_propagate hprop).trans ht.database), hrest.refuted,
            hrest.idle, fun hb m hm => hrest.placed hb m ?_, hrest.watching⟩
          rw [List.mem_cons, ← or_assoc] at hm
          exact hm.imp_left fun hm => hp.longer.mem ((ht.yes rfl m).2 hm)

/-! ## Rolling back -/

/-- What rolling back does; `e₁` is what it leaves before the facts are assigned again. -/
structure RolledBack (s : Snapshot) (e e₁ : Engine) (b : Bool) (e' : Engine) : Prop where
  cut : Cut s e e₁
  evolves : e₁.Evolves e'
  varCount : e'.trail.varCount = s.vars
  decides : e'.decisions.decides = e₁.decisions.decides
  fit : e'.Fit fun w => s.ok = true ∧ e.Kept s w
  ground : e'.trail.level = 0
  resting : b = true → e'.Resting True
  problem : b = true → ∀ w, e'.Problem w ↔ e.Kept s w
  ok : b = true → s.ok = true
  refuted : s.ok = true → b = false → ∀ w, ¬ e.Kept s w

/-- Going back to a snapshot ends at rest with its problem, or shows that this has no world. -/
theorem rolledBack_of_rollback (hf : e.Fit R) (hi : e.settings.incremental = true)
    (hs : e.Restorable s) (h : e.rollback s = .ok (b, e')) : ∃ e₁, RolledBack s e e₁ b e' := by
  rw [rollback, bind_eq_ok] at h
  obtain ⟨e₁, hdiscard, h⟩ := h
  obtain ⟨hcut, hf₁, hlits, hhead, hground⟩ := cut_of_discardSince hf hi hs hdiscard
  refine ⟨e₁, ?_⟩
  have hnone : ∀ l, l ∉ e₁.trail := fun l hl => by
    simp [Trail.mem_def, hlits] at hl
  split at h
  next hok =>
      -- with an empty trail nothing waits and nothing is forgotten
      have hidle : e₁.Idle := by
        rw [Idle, hhead, hlits]
        rfl
      have hwatch : e₁.Watching := fun a c hc key _ hdone =>
        absurd (List.mem_of_mem_take hdone) (hnone key)
      have hp := replayed_of_replay hf₁ hground hidle hwatch (fun w hw => hf₁.units w hw) h
      have hkept : ∀ w, e₁.Problem w → e.Kept s w := fun w hw => by
        rw [← hcut.kept_iff (.refl s)]
        exact ⟨fun a ha c hc => hw.given a (List.mem_of_mem_take ha) c hc,
          fun l hl => hw.units l (List.mem_of_mem_take hl)⟩
      have hproblem : ∀ w, e'.Problem w ↔ e.Kept s w := fun w =>
        ⟨fun hw => hkept w (hp.reaches.evolves.problem w hw),
          fun hw => hp.reaches.fit.problem ⟨hok, hw⟩⟩
      refine ⟨hcut, hp.reaches.evolves, hp.reaches.varCount.trans hcut.varCount, hp.reaches.decides,
        hp.reaches.fit, hp.ground, fun hb => ⟨?_, hp.ground, hp.idle hb, fun l hl => ?_,
          fun _ => hp.watching hb⟩, fun _ => hproblem, fun _ => hok,
        fun _ hb w hw => hp.refuted hb w ⟨hok, hw⟩⟩
      · exact hp.reaches.fit.anti fun w hw => ⟨hok, (hproblem w).1 hw⟩
      · have hmem := hp.placed hb l (Or.inr (hp.database ▸ hl))
        have := hp.reaches.fit.sane.trail.levelOf_le hmem
        have hlevel := hp.ground
        exact ⟨hmem, Nat.le_zero.1 (hlevel ▸ this)⟩
  next hok =>
      obtain ⟨rfl, rfl⟩ := Prod.mk.inj (pure_eq_ok.1 h)
      exact ⟨hcut, .refl _, hcut.varCount, rfl, hf₁, hground, by simp, by simp, by simp,
        fun hyes => absurd hyes hok⟩

end Engine

end CardSat
