import CardSat.Proofs.Database.Truncating
import CardSat.Proofs.Engine.Orderly
import CardSat.Proofs.Engine.Rollback

set_option autoImplicit false

/-! # Going back is not refused

An engine in order that has what a snapshot counts on can go back to it: no lookup of `discardSince`
fails (`returns_of_discardSince`), and as long as the facts are about known variables, neither does
the replay (`returns_of_replay`). The engine is in order afterwards.

Going back touches every table of the engine: values are taken back, constraints are freed and taken
off their lines, and the tables are cut to the variables of the snapshot. Each part has its own
condition for not being refused, and it has to be there after the parts before it. So the proofs
follow the parts in their order, and each gives a result together with the condition for the next
(`exists_discards`).
-/

namespace CardSat

namespace WatchIndex

variable {w w' : WatchIndex} {c : Constraint} {h : Handle} {n : Nat}

/-- The lines of known literals can be changed. -/
theorem returns_of_modifyAll {f : WatchLine → WatchLine} {ls : List Lit} (hw : w.Covers n)
    (hls : ∀ l ∈ ls, l.var.index < n) :
    ∃ w', ls.foldlM (fun (w : WatchIndex) l => w.modify l.index f) w = .ok w' ∧ w'.Covers n := by
  obtain ⟨w', hfold, hcov, -⟩ := succeeds_foldlM
    (f := fun (w : WatchIndex) (l : Lit) => w.modify l.index f)
    (fun rest w₁ => w₁.Covers n ∧ ∀ l ∈ rest, l.var.index < n) (fun l rest w₁ ⟨hcov, hrest⟩ => by
      obtain ⟨w₂, h₂⟩ := succeeds_modify (hcov.lt (hrest l (by simp))) f
      refine ⟨w₂, h₂, ?_, fun m hm => hrest m (List.mem_cons_of_mem _ hm)⟩
      rw [Covers, size_modify h₂]
      exact hcov) ⟨hw, hls⟩
  exact ⟨w', hfold, hcov⟩

/-- A constraint over covered variables can be taken off its lines. -/
theorem succeeds_unwatch (hw : w.Covers n) (hc : c.WellFormed n) :
    ∃ w', w.unwatch c h = .ok w' ∧ w'.Covers n := by
  obtain ⟨ls, hls⟩ := Constraint.succeeds_watchKeys hc
  obtain rfl := Constraint.watchKeys_eq_ok hls
  obtain ⟨w', hfold, hcov⟩ := returns_of_modifyAll hw fun l hl => hc.known_of_mem_keys hl
  exact ⟨w', bind_eq_ok.2 ⟨c.keys, hls, hfold⟩, hcov⟩

/-- Removing the watchers of known constraints is not refused. -/
theorem succeeds_unwatch_all {xs : List (Handle × Constraint)} (hw : w.Covers n)
    (hxs : ∀ x ∈ xs, x.2.WellFormed n) :
    Succeeds (xs.foldlM (fun (w : WatchIndex) x => w.unwatch x.2 x.1) w) := by
  let P : List (Handle × Constraint) → WatchIndex → Prop := fun rest w₁ =>
    w₁.Covers n ∧ ∀ x ∈ rest, x.2.WellFormed n
  obtain ⟨w', h', -⟩ := succeeds_foldlM P (fun x rest w₁ h₁ => by
    obtain ⟨w₂, h₂, hcov⟩ := succeeds_unwatch (h := x.1) h₁.1 (h₁.2 x (by simp))
    exact ⟨w₂, h₂, hcov, fun y hy => h₁.2 y (List.mem_cons_of_mem _ hy)⟩) (⟨hw, hxs⟩ : P xs w)
  exact ⟨w', h'⟩

end WatchIndex

namespace Decisions

variable {d : Decisions} {t : Trail} {n : Nat} {free : Var → Prop}

/-- The values of known variables can be taken back. -/
theorem succeeds_takeBack {l : Lit} {top : Bool} (hl : (d.decides l.var).isSome = true) :
    Succeeds (d.takeBack l top) := by
  obtain ⟨c, hc⟩ := Option.isSome_iff_exists.1 (by simpa [decides] using hl :
    (d.choices.get? l.var.index).isSome = true)
  exact succeeds_bind ⟨c, SparseTable.fetch_eq_ok.2 hc⟩ fun _ _ => succeeds_pure _

/-- Values of known variables can be taken back. -/
theorem succeeds_takeBack_all {α : Type} {g : α → Lit} {top : α → Bool} {as : List α}
    (hr : d.Ready free) (has : ∀ a ∈ as, (d.decides (g a).var).isSome = true) :
    Succeeds (as.foldlM (fun (d : Decisions) a => d.takeBack (g a) (top a)) d) := by
  let P : List α → Decisions → Prop := fun rest d₁ =>
    (∃ free, d₁.Ready free) ∧ d₁.decides = d.decides ∧ ∀ a ∈ rest, a ∈ as
  have hstep : ∀ a rest d₁, P (a :: rest) d₁ →
      ∃ d₂, d₁.takeBack (g a) (top a) = .ok d₂ ∧ P rest d₂ := by
    rintro a rest d₁ ⟨⟨free, hr₁⟩, hd₁, hrest⟩
    obtain ⟨d₂, h₂⟩ : Succeeds (d₁.takeBack (g a) (top a)) :=
      succeeds_takeBack (by rw [hd₁]; exact has a (hrest a (by simp)))
    obtain ⟨hr₂, hd₂⟩ := takeBack_ready h₂ hr₁
    exact ⟨d₂, h₂, ⟨_, hr₂⟩, hd₂.trans hd₁, fun b hb => hrest b (List.mem_cons_of_mem _ hb)⟩
  obtain ⟨d', h', -⟩ := succeeds_foldlM P hstep (⟨⟨free, hr⟩, rfl, fun _ => id⟩ : P as d)
  exact ⟨d', h'⟩

/-- The queue can be made anew for the first variables of a trail. -/
theorem succeeds_truncateVars (hn : n ≤ t.varCount) : Succeeds (d.truncateVars n t) := by
  refine succeeds_bind (succeeds_filterMapM fun a ha => ?_) fun _ _ => succeeds_pure _
  obtain ⟨i, choice⟩ := a
  have hi := SparseTable.mem_entries.1 ha
  rw [SparseTable.get?_truncate] at hi
  have hlt : i < n := by
    by_contra hge
    rw [if_neg hge] at hi
    cases hi
  dsimp only
  split
  next =>
      exact succeeds_bind (Trail.succeeds_isUnset (v := ⟨i⟩) (Nat.lt_of_lt_of_le hlt hn))
        fun _ _ => succeeds_pure _
  next => exact succeeds_pure _

end Decisions

namespace Engine

open Database

variable {e e' : Engine} {R : World → Prop} {s : Snapshot} {b : Bool}

/-! ## Discarding -/

/-- Every lookup of `discardSince` finds what it needs. -/
theorem exists_discards (hf : e.Fit R) (hi : e.settings.incremental = true)
    (hs : e.Restorable s) (ho : e.Orderly) :
    ∃ d₁ db sw index d₂, Discards s e d₁ db sw index d₂ := by
  have hsane := hf.emptied hi
  obtain ⟨d₁, hundo⟩ : Succeeds (e.trail.rewindAll.1.foldlM
      (fun (d : Decisions) l => d.takeBack l true) e.decisions) :=
    Decisions.succeeds_takeBack_all (g := id) hf.ready fun l hl =>
      (ho.known l.var).2 (hf.sane.trail.lt_varCount hl)
  obtain ⟨db, sw, htrunc, hremoved⟩ :
      ∃ db sw, e.database.truncate e.store e.trail.rewindAll.2 s.clauses s.learnts s.units =
        .ok (db, sw) ∧ ∀ x ∈ sw.removed.toList, x.2.WellFormed e.trail.rewindAll.2.varCount :=
    succeeds_truncate hf.listed.nodup ho.stored hsane.formed
  -- truncating forgets reasons, and leaves the rest of the trail
  have hclear : e.trail.rewindAll.2.Cleared sw.trail :=
    (removal_of_truncate hsane ⟨by simp, by simp⟩ (fun h : False => h.elim) hf.listed
      htrunc : Removal _ _ _ (fun _ => False) _ _ _ _ ∧ _).1.thinned.trail
  have hcovers : e.network.index.Covers e.trail.rewindAll.2.varCount := by
    rw [Trail.varCount_rewindAll]
    exact ho.tended.covers
  obtain ⟨index, hindex⟩ := WatchIndex.succeeds_unwatch_all hcovers hremoved
  have hvars : s.vars ≤ (sw.trail.cells.take s.vars).size := by
    have hcount : sw.trail.cells.size = e.trail.varCount :=
      hclear.varCount.trans (Trail.varCount_rewindAll _)
    rw [Array.take_eq_extract, Array.size_extract, Nat.sub_zero, hcount]
    exact Nat.le_min.2 ⟨Nat.le_refl _, hs.vars⟩
  obtain ⟨d₂, hd₂⟩ := Decisions.succeeds_truncateVars (d := d₁)
    (t := { sw.trail with cells := sw.trail.cells.take s.vars }) hvars
  exact ⟨d₁, db, sw, index, d₂, hundo, htrunc, hindex, hclear.lits, hd₂⟩

/-- The lines are tended still. -/
theorem Discards.tended {d₁ d₂ : Decisions} {db : Database} {sw : Sweep} {index : WatchIndex}
    {dead : Lit → Prop} (h : Discards s e d₁ db sw index d₂)
    (hsane : e.emptied.Sane e.dead e.network.index.line) (hl : e.database.Listed e.store)
    (hs : e.Restorable s) (hx : Exact e.network.index.line e.store dead)
    (ht : e.network.Tended) : (e.discarded s db sw index d₂).network.Tended := by
  obtain ⟨hrem, -⟩ := h.removal hsane hl
  obtain ⟨hcount, hvars⟩ := h.varCount hsane hl hs
  have ht : Network.Tended { e.network with store := sw.store, trail := sw.trail, index } :=
    ht.unwatch hx hcount (fun a c hac hno => hrem.accounted a c hac hno) h.unwatch
  exact ht.truncateVars (t := { sw.trail with cells := sw.trail.cells.take s.vars })
    (hcount ▸ hs.vars) hvars

/-- The engine is in order with everything discarded. -/
theorem orderly_of_discards {d₁ d₂ : Decisions} {db : Database} {sw : Sweep} {index : WatchIndex}
    (h : Discards s e d₁ db sw index d₂) (hf : e.Fit R) (hi : e.settings.incremental = true)
    (hs : e.Restorable s) (ho : e.Orderly) : (e.discarded s db sw index d₂).Orderly := by
  have hsane := hf.emptied hi
  obtain ⟨hrem, -, -, hgiven, hlearnts⟩ := h.removal hsane hf.listed
  obtain ⟨hcount, hvars⟩ := h.varCount hsane hf.listed hs
  refine ⟨h.tended hsane hf.listed hs hf.sane.lines ho.tended, fun a ha => ?_,
    tallied_of_truncate hf.listed ho.tallied h.truncate, fun v => ?_⟩
  · have ha' : a ∈ db.given.toList ++ db.learnts.toList := ha
    refine hrem.stored a ha' (ho.stored a ?_)
    rw [hgiven] at ha'
    -- a given constraint is one of the first, and a learnt clause is one of those kept
    rcases List.mem_append.1 ha' with ha' | ha'
    · rw [Array.take_eq_extract, Array.toList_extract, List.extract_eq_take_drop] at ha'
      exact List.mem_append_left _ (List.mem_of_mem_take ha')
    · exact List.mem_append_right _ (hlearnts a ha')
  · show (d₂.decides v).isSome = true ↔ v.index < (sw.trail.cells.take s.vars).size
    rw [h.decides hf, hvars]
    split
    next hlt =>
        rw [ho.known v]
        exact iff_of_true (Nat.lt_of_lt_of_le hlt hs.vars) hlt
    next hge => exact iff_of_false (by simp) hge

/-- Discarding what is younger than a snapshot is not refused. -/
theorem returns_of_discardSince (hf : e.Fit R) (hi : e.settings.incremental = true)
    (hs : e.Restorable s) (ho : e.Orderly) : ∃ e', e.discardSince s = .ok e' ∧ e'.Orderly := by
  obtain ⟨d₁, db, sw, index, d₂, h⟩ := exists_discards hf hi hs ho
  exact ⟨_, (discardSince_eq_ok hs).2 ⟨d₁, db, sw, index, d₂, h, rfl⟩,
    orderly_of_discards h hf hi hs ho⟩

/-- It leaves an engine in order. -/
theorem orderly_of_discardSince (hf : e.Fit R) (hi : e.settings.incremental = true)
    (hs : e.Restorable s) (ho : e.Orderly) (h : e.discardSince s = .ok e') : e'.Orderly := by
  obtain ⟨e'', h', ho'⟩ := returns_of_discardSince hf hi hs ho
  obtain rfl := Except.ok.inj (h'.symm.trans h)
  exact ho'

/-! ## Replaying -/

section

variable {l : Lit} {facts : List Lit} {t : Trail}

/-- A fact about a known variable is tried. -/
theorem succeeds_tryAssign (hl : l.var.index < e.trail.varCount) :
    Succeeds (e.trail.tryAssign l none) := by
  refine succeeds_bind (Trail.succeeds_value hl) fun x hx => ?_
  obtain ⟨-, rfl⟩ := Trail.value_eq_ok.1 hx
  split
  next => exact succeeds_pure _
  next => exact succeeds_pure _
  next hu => exact succeeds_bind (Trail.succeeds_assign hl hu none) fun _ _ => succeeds_pure _

/-- Assigning a fact leaves an engine in order. -/
theorem orderly_of_tryAssign (hv : e.trail.Valid) (ho : e.Orderly)
    (h : e.trail.tryAssign l none = .ok (b, t)) :
    Orderly { e with network := { e.network with trail := t } } := by
  rcases tryAssign_eq_ok hv h with ⟨-, -, rfl⟩ | ⟨-, -, rfl⟩ | ⟨-, hassign⟩
  · exact ho
  · exact ho
  · exact ho.assigned hassign

/-- Replaying facts about known variables is never refused, and leaves an engine in order. -/
theorem returns_of_replay : ∀ {facts : List Lit} {e : Engine}, e.Fit (fun _ => False) →
    e.trail.level = 0 → e.Orderly → (∀ l ∈ facts, l.var.index < e.trail.varCount) →
    ∃ b e', replay facts e = .ok (b, e') ∧ e'.Orderly := by
  intro facts
  induction facts with
  | nil => exact fun {e} _ _ ho _ => ⟨true, e, rfl, ho⟩
  | cons l rest ih =>
      intro e hf hground ho hknown
      obtain ⟨⟨holds, t⟩, htry⟩ := succeeds_tryAssign (hknown l List.mem_cons_self)
      have ht := tried_of_tryAssign hf hground (fun _ => False.elim) htry
      have ho₁ := orderly_of_tryAssign hf.sane.trail ho htry
      cases holds with
      | false => exact ⟨false, _, replay_cons_eq_ok.2 (.refused htry), ho₁⟩
      | true =>
          obtain ⟨failed, e₂, hprop, ho₂⟩ := returns_of_propagate ht.reaches.fit ho₁
          have hp : Engine.Propagated (fun _ => False) False _ failed e₂ :=
            propagated_of_propagate ht.reaches.fit False.elim hprop
          cases failed with
          | some a => exact ⟨false, e₂, replay_cons_eq_ok.2 (.failed htry hprop), ho₂⟩
          | none =>
              obtain ⟨b, e', hrest, ho'⟩ := ih hp.reaches.fit (hp.longer.level_eq.trans ht.ground)
                ho₂ fun m hm => by
                  rw [hp.reaches.varCount, ht.reaches.varCount]
                  exact hknown m (List.mem_cons_of_mem l hm)
              exact ⟨b, e', replay_cons_eq_ok.2 (.next htry hprop hrest), ho'⟩

/-- A replay that succeeds keeps the order, whatever its facts are about. -/
theorem orderly_of_replay : ∀ {facts : List Lit} {e : Engine}, e.Fit (fun _ => False) →
    e.trail.level = 0 → e.Orderly → replay facts e = .ok (b, e') → e'.Orderly := by
  intro facts
  induction facts with
  | nil =>
      intro e _ _ ho h
      obtain ⟨-, rfl⟩ := Prod.mk.inj (pure_eq_ok.1 h)
      exact ho
  | cons l rest ih =>
      intro e hf hground ho h
      cases replay_cons_eq_ok.1 h with
      | refused htry => exact orderly_of_tryAssign hf.sane.trail ho htry
      | failed htry hprop =>
          have ht := tried_of_tryAssign hf hground (fun _ => False.elim) htry
          exact orderly_of_propagate ht.reaches.fit (orderly_of_tryAssign hf.sane.trail ho htry) hprop
      | next htry hprop h =>
          have ht := tried_of_tryAssign hf hground (fun _ => False.elim) htry
          have ho₁ := orderly_of_tryAssign hf.sane.trail ho htry
          have hp : Engine.Propagated (fun _ => False) False _ none _ :=
            propagated_of_propagate ht.reaches.fit False.elim hprop
          exact ih hp.reaches.fit (hp.longer.level_eq.trans ht.ground)
            (orderly_of_propagate ht.reaches.fit ho₁ hprop) h

end

end Engine

end CardSat
