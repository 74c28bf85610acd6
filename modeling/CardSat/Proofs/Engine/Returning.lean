import CardSat.Proofs.Analysis.Returning
import CardSat.Proofs.Engine.Loading

set_option autoImplicit false

/-! # Steps that return

In an engine that is fit and in order no step that a caller directs is refused: the analysis of a
conflict where every level begins with its decision, going back, and learning a clause where it
forces its first literal.

What is refused otherwise is told by the hypotheses. An analysis looks for the decision of each
level, so it walks off the trail where a level has none. A clause is learnt by assigning its first
literal, so this literal must not have a value.
-/

namespace CardSat

namespace Decisions

variable {d : Decisions} {free : Var → Prop} {v : Var}

/-- The activity of a known variable can be raised. -/
theorem succeeds_bump (hr : d.Ready free) (hv : (d.decides v).isSome = true) :
    Succeeds (d.bump v) := by
  obtain ⟨a, ha⟩ := Option.isSome_iff_exists.1 (hr.rated v hv)
  exact succeeds_bind ⟨a, SparseTable.fetch_eq_ok.2 ha⟩ fun _ _ => succeeds_pure _

/-- Known variables can be made more active. -/
theorem succeeds_bump_all {vars : List Var} (hr : d.Ready free)
    (hvars : ∀ v ∈ vars, (d.decides v).isSome = true) : Succeeds (vars.foldlM bump d) := by
  obtain ⟨d', hfold, -⟩ := succeeds_foldlM (f := bump)
    (fun rest d₁ => d₁.Ready free ∧ d₁.decides = d.decides ∧ ∀ v ∈ rest, v ∈ vars)
    (fun v rest d₁ ⟨hr₁, hd₁, hrest⟩ => by
      obtain ⟨d₂, hbump⟩ := succeeds_bump hr₁ (v := v) (by
        rw [hd₁]
        exact hvars v (hrest v (by simp)))
      obtain ⟨hr₂, hd₂⟩ := bump_ready hbump hr₁
      exact ⟨d₂, hbump, hr₂, hd₂.trans hd₁, fun u hu => hrest u (List.mem_cons_of_mem _ hu)⟩)
    ⟨hr, rfl, fun _ => id⟩
  exact ⟨d', hfold⟩

end Decisions

/-- A clause over known variables can be put on watch. -/
theorem WatchIndex.succeeds_watch {w : WatchIndex} {c : Constraint} {n : Nat} {h : Handle}
    (hw : w.Covers n) (hc : c.WellFormed n) (ha : c.isAtMost = false) :
    Succeeds (w.watch c h) := by
  have htwo : 2 ≤ c.lits.size := hc.two_le
  have hmem : ∀ {i : Nat} {l : Lit}, fetch c.lits i = .ok l → l.index < 2 * n ∧
      l.neg.index < 2 * n := fun {i l} hl => by
    rw [fetch_eq_ok, ← Array.getElem?_toList] at hl
    have hl' := hc.known l (List.mem_of_getElem? hl)
    exact ⟨Lit.index_lt_iff.2 hl', Lit.index_lt_iff.2 hl'⟩
  obtain ⟨a, ha₀⟩ : Succeeds (fetch c.lits 0) := succeeds_fetch (by omega)
  obtain ⟨b, hb₀⟩ : Succeeds (fetch c.lits 1) := succeeds_fetch (by omega)
  obtain ⟨w₁, h₁⟩ := succeeds_modify (Nat.lt_of_lt_of_le (hmem ha₀).2 hw) fun line =>
    { line with watchers := line.watchers.push (⟨h, some b⟩ : Watcher) }
  have hw₁ : WatchIndex.Covers w₁ n := by
    rw [WatchIndex.Covers, size_modify h₁]
    exact hw
  obtain ⟨w₂, h₂⟩ := succeeds_modify (Nat.lt_of_lt_of_le (hmem hb₀).2 hw₁) fun line =>
    { line with watchers := line.watchers.push (⟨h, some a⟩ : Watcher) }
  refine ⟨w₂, ?_⟩
  simp only [watch, ha, Bool.false_eq_true, if_false, Constraint.headPair, ha₀, hb₀, ok_bind, push]
  show (w.modify a.neg.index _ >>= fun w => w.modify b.neg.index _) = _
  rw [h₁]
  exact h₂

namespace Database

variable {db : Database} {store : Store} {h : Handle}

/-- The activity of a stored clause can be scaled. -/
theorem succeeds_scaleActivity {c : Constraint} (hc : store.get? h = some c) (f : Float) :
    Succeeds (scaleActivity store h f) := by
  refine succeeds_bind ⟨c, Store.fetch_eq_ok.2 hc⟩ fun d _ => ?_
  split
  · exact succeeds_pure _
  · exact succeeds_pure _

/-- The activity of a stored constraint can be raised. -/
theorem succeeds_bump {c : Constraint} (hc : store.get? h = some c)
    (hlearnts : ∀ a ∈ db.learnts.toList, ∃ c, store.get? a = some c) :
    Succeeds (db.bump store h) := by
  rw [bump, Store.fetch_eq_ok.2 hc, ok_bind]
  split
  next a k hk =>
      have hput : store.Relabels (store.put h { c with kind := .learnt (a + db.increment) k }) :=
        .put hc (by simp [hk, Kind.plain]) rfl
      dsimp only
      split
      next =>
          refine succeeds_bind ?_ fun _ _ => succeeds_pure _
          rw [← Array.foldlM_toList]
          obtain ⟨store', hfold, -⟩ := succeeds_foldlM
            (f := fun store h => scaleActivity store h clauseActivityScale)
            (fun rest store₁ => store.Relabels store₁ ∧ ∀ a ∈ rest, a ∈ db.learnts.toList)
            (fun a rest store₁ hinv => by
              obtain ⟨hrel, hrest⟩ := hinv
              obtain ⟨d, hd⟩ := hlearnts a (hrest a (by simp))
              obtain ⟨d', hd', -⟩ := hrel.forth a d hd
              obtain ⟨store₂, hscale⟩ := succeeds_scaleActivity hd' clauseActivityScale
              exact ⟨store₂, hscale, hrel.trans (relabels_of_scaleActivity hscale), fun b hb =>
                hrest b (List.mem_cons_of_mem _ hb)⟩)
            ⟨hput, fun _ => id⟩
          exact ⟨store', hfold⟩
      next => exact succeeds_pure _
  next => exact succeeds_pure _

/-- A clause of at least two literals can be stored, if all learnt clauses are. -/
theorem succeeds_learn {lits : Array Lit} (htwo : 2 ≤ lits.size)
    (hlearnts : ∀ a ∈ db.learnts.toList, ∃ c, store.get? a = some c) :
    Succeeds (db.learn store lits) := by
  refine succeeds_bind ⟨_, bind_eq_ok.2 ⟨(), require_eq_ok.2 (by simpa using htwo), rfl⟩⟩ ?_
  rintro ⟨a, store₁⟩ halloc
  obtain ⟨-, hfresh, -, -, hget⟩ := Store.alloc_eq_ok halloc
  have hself : store₁.get? a = some ⟨.learnt 0.0 db.nextSerial, lits⟩ := by rw [hget, if_pos rfl]
  refine succeeds_bind (succeeds_bump hself fun b hb => ?_) fun _ _ => succeeds_pure _
  rw [hget]
  split
  · exact ⟨_, rfl⟩
  · rcases List.mem_append.1 (by simpa using hb : b ∈ db.learnts.toList ++ [a]) with hb | hb
    · exact hlearnts b hb
    · next hne => exact absurd (List.mem_singleton.1 hb) hne

end Database

namespace Engine

variable {e : Engine} {R : World → Prop} {l : Lit}

/-- The learnt clauses are stored. -/
theorem Orderly.learnts_stored (ho : e.Orderly) :
    ∀ h ∈ e.database.learnts.toList, ∃ c, e.store.get? h = some c := fun h hh =>
  ho.stored h (List.mem_append_right _ hh)

/-- Going back is not refused. -/
theorem succeeds_cancelUntil (hf : e.Fit R) (ho : e.Orderly) (b : Nat) :
    Succeeds (e.cancelUntil b) := by
  refine succeeds_bind (Decisions.succeeds_takeBack_all (g := Prod.snd) hf.ready fun x hx => ?_)
    fun _ _ => succeeds_pure _
  have hmem : x.2 ∈ (e.trail.rewind b).1.map Prod.snd := List.mem_map_of_mem hx
  rw [Trail.undone_rewind, List.mem_reverse] at hmem
  exact (ho.known x.2.var).2 (hf.sane.trail.lt_varCount (List.mem_of_mem_drop hmem))

/-- The analysis of a conflict is not refused where every level begins with its decision. -/
theorem succeeds_analyze {failed : Handle} (hf : e.Fit R) (ho : e.Orderly) (hled : e.trail.Led)
    (hconf : e.network.Conflict failed) : Succeeds (e.analyze failed) := by
  obtain ⟨x, a, hx, hvars, hconstraints⟩ :=
    Analysis.returns_of_analyze hf.sane.justified hled hconf hf.clean hf.marked
  refine succeeds_bind ⟨(x, a), hx⟩ fun p hp => ?_
  obtain rfl := Except.ok.inj (hx.symm.trans hp)
  refine succeeds_bind (Decisions.succeeds_bump_all hf.ready fun v hv =>
    (ho.known v).2 (hvars v hv)) fun d _ => succeeds_bind ?_ fun _ _ => succeeds_pure _
  obtain ⟨y, hfold, -⟩ := succeeds_foldlM (b := (e.database, e.store))
    (f := fun (p : Database × Store) h => Database.bump p.1 p.2 h)
    (fun rest (p : Database × Store) => e.database.SameLists p.1 ∧ e.store.Relabels p.2 ∧
      ∀ h ∈ rest, h ∈ x.constraints)
    -- what is to be bumped is still stored, for bumping only relabels
    (fun h rest p ⟨hdb, hrel, hrest⟩ => by
      have hlive : ∀ a, (∃ c, e.store.get? a = some c) → ∃ c, p.2.get? a = some c :=
        fun a ⟨c, hc⟩ => (hrel.forth a c hc).imp fun _ => And.left
      obtain ⟨c, hc⟩ := hlive h (hconstraints h (hrest h (by simp)))
      obtain ⟨⟨db, store⟩, hbump⟩ : Succeeds (p.1.bump p.2 h) :=
        Database.succeeds_bump hc fun a ha =>
          hlive a (ho.learnts_stored a (hdb.learnts ▸ ha))
      obtain ⟨hdb', hrel'⟩ := Database.relabels_of_bump hbump
      exact ⟨_, hbump, hdb.trans hdb', hrel.trans hrel', fun b hb =>
        hrest b (List.mem_cons_of_mem _ hb)⟩)
    ⟨.refl _, .refl _, fun _ => id⟩
  exact ⟨y, hfold⟩

/-- A literal without a value can be assigned. -/
theorem succeeds_assign {reason : Option Handle} (hl : l.var.index < e.trail.varCount)
    (hu : e.trail.truth l = .unset) : Succeeds (e.assign l reason) :=
  succeeds_bind (Trail.succeeds_assign hl hu reason) fun _ _ => succeeds_pure _

/-- A clause can be learnt where it forces its first literal. -/
theorem succeeds_learn {lits : Array Lit} (hf : e.Fit R) (ho : e.Orderly)
    (hfc : Forcing e.trail l lits.toList) (hu : e.trail.truth l = .unset) :
    Succeeds (e.learn l lits) := by
  have htwo : 2 ≤ lits.size := hfc.two_le
  rw [learn, if_neg (by omega)]
  -- storing makes activities grow, which leaves the literals of the new clause alone
  refine succeeds_bind (Database.succeeds_learn htwo ho.learnts_stored) ?_
  rintro ⟨a, db, store⟩ hlearn
  obtain ⟨store₁, hadded, hrel, -⟩ := Database.added_of_learn hf.listed hlearn
  obtain ⟨c, hc, hkind, hlits⟩ := hrel.forth a _ (by rw [hadded.get?, if_pos rfl])
  have hsame : (⟨.learnt 0.0 e.database.nextSerial, lits⟩ : Constraint).Same c :=
    .of_lits_eq hkind hlits
  obtain ⟨index, hindex⟩ := WatchIndex.succeeds_watch (h := a) ho.tended.covers
    (hsame.wellFormed (hfc.wellFormed hf.sane.trail (by simp))) (hsame.isAtMost_eq.trans rfl)
  have hwatch : ∃ e₁, watch { e with database := db, network := { e.network with store } } a =
      .ok e₁ :=
    ⟨_, bind_eq_ok.2 ⟨c, Store.fetch_eq_ok.2 hc, bind_eq_ok.2 ⟨index, hindex, rfl⟩⟩⟩
  refine succeeds_bind hwatch fun e₁ hwatch => ?_
  obtain ⟨_, _, -, -, rfl⟩ := watch_eq_ok hwatch
  exact succeeds_assign hfc.known hu

end Engine

end CardSat
