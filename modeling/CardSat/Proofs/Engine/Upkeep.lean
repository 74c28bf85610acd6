import CardSat.Proofs.Engine.Adding
import CardSat.Proofs.Engine.Kempt
import CardSat.Proofs.Engine.Loading
import CardSat.Proofs.Engine.Underway
import CardSat.Proofs.Engine.Variables

set_option autoImplicit false

/-! # Calls that keep an engine kempt

Whatever an engine was used for, the calls that add constraints, preprocess or search leave it
kempt, at the ground level and with nothing waiting (`Engine.Finishes`). In the course of a search
it is kempt in every round (`upholds_of_round`). Going back to a snapshot leaves a kempt engine as
well, and older snapshots can be loaded still (`Engine.Reverts`).

Only simplifying needs to know which literals the constraints have had: it strips clauses of
literals, and their watchers may keep these as blockers. So the theorems about calls that simplify
have a condition on the set of past literals: it contains those of the constraints in every state
that the call passes (`Traverses`). Which states these are is not known before the call, but the set
may be chosen after it.
-/

namespace CardSat

namespace Engine

variable {had : Handle → Lit → Prop} {e e' e'' e₀ : Engine} {l : Lit} {lits : List Lit}
  {b : Bool} {task : Task} {a : Answer}

/-- A call that ends at the ground level, with nothing waiting. -/
structure Finishes (had : Handle → Lit → Prop) (e e' : Engine) : Prop extends
    Upholds had e e' where
  ground : e'.trail.level = 0
  idle : e'.Idle

/-- No call. -/
theorem Finishes.refl (hk : e.Kempt had) (hground : e.trail.level = 0) (hidle : e.Idle) :
    e.Finishes had e := ⟨.refl hk, hground, hidle⟩

/-- A call after a step. -/
theorem Finishes.after (h' : e'.Finishes had e'') (h : e.Upholds had e') : e.Finishes had e'' :=
  ⟨h.trans h'.toUpholds, h'.ground, h'.idle⟩

/-- Propagation at the ground level. -/
theorem finishes_of_propagate {failed : Option Handle} (hk : e.Kempt had)
    (hground : e.trail.level = 0) (h : e.propagate = .ok (failed, e')) : e.Finishes had e' := by
  obtain ⟨hs, hidle, hlevel, -⟩ := spares_of_propagate hk h
  exact ⟨hs.toUpholds, hlevel.trans hground, hidle⟩

/-- Going back to the ground level. -/
theorem finishes_of_cancelUntil (hk : e.Kempt had) (hor : e.Idle ∨ 0 < e.trail.level)
    (h : e.cancelUntil 0 = .ok e') : e.Finishes had e' := by
  refine ⟨(spares_of_cancelUntil hk h).toUpholds, ?_, hk.idle_of_cancelUntil h hor⟩
  rw [level_of_cancelUntil h, Nat.zero_min]

/-- The first engine. -/
theorem kempt_of_empty {settings : Settings} (h : Engine.empty settings = .ok e) :
    e.Kempt had := by
  have hr : e.Resting True := (resting_of_empty h).1
  have hv := hr.fit.sane.trail
  refine ⟨hr.fit.sane.aligned, (orderly_of_empty h).tended, hr.fit.listed,
    Network.reasoned_of_ground hv hr.ground, Network.layered_of_ground hv hr.ground,
    fun l x hx => ?_⟩
  obtain ⟨d, -, h⟩ := bind_eq_ok.1 h
  obtain rfl := pure_eq_ok.1 h
  exact absurd (line_empty l ▸ hx) List.not_mem_nil

/-! ## Clauses -/

/-- Making literals false keeps an engine kempt. -/
theorem spares_of_refute : ∀ {lits : List Lit} {e : Engine}, e.Kempt had →
    refute lits e = .ok (b, e') → e.Spares had e' ∧ e'.trail.level = e.trail.level := by
  intro lits
  induction lits with
  | nil =>
      intro e hk h
      obtain ⟨-, rfl⟩ := Prod.mk.inj (pure_eq_ok.1 h)
      exact ⟨.refl hk, rfl⟩
  | cons l rest ih =>
      intro e hk h
      rw [refute, bind_eq_ok] at h
      obtain ⟨x, -, h⟩ := h
      cases x with
      | yes =>
          obtain ⟨-, rfl⟩ := Prod.mk.inj (pure_eq_ok.1 h)
          exact ⟨.refl hk, rfl⟩
      | no => exact ih hk h
      | unset =>
          obtain ⟨e₁, hassign, h⟩ := bind_eq_ok.1 h
          obtain ⟨hs, hlevel⟩ := spares_of_assign hk hassign
          obtain ⟨hs', hlevel'⟩ := ih hs.kempt h
          exact ⟨hs.trans hs', hlevel'.trans hlevel⟩

/-- A trial on a level of its own is taken back. -/
theorem finishes_of_implies (hk : e.Kempt had) (hidle : e.Idle) (h : e.implies lits = .ok (b, e')) :
    e.Finishes had e' := by
  simp only [implies, bind_eq_ok] at h
  obtain ⟨-, -, ⟨found, e₁⟩, hrefute, h⟩ := h
  have hopen := spares_of_openLevel hk hidle
  obtain ⟨hs, hlevel⟩ := spares_of_refute hopen.kempt hrefute
  -- there is a level to take back, so nothing waits afterwards even where nothing was propagated
  have hpos : 0 < e₁.trail.level := by
    rw [hlevel, trail, Trail.level_openLevel]
    omega
  have hto := (hopen.trans hs).toUpholds
  cases found with
  | true =>
      obtain ⟨e₂, hcancel, h⟩ := bind_eq_ok.1 h
      obtain ⟨-, rfl⟩ := Prod.mk.inj (pure_eq_ok.1 h)
      exact (finishes_of_cancelUntil hs.kempt (.inr hpos) hcancel).after hto
  | false =>
      obtain ⟨⟨failed, e₂⟩, hprop, h⟩ := bind_eq_ok.1 h
      obtain ⟨e₃, hcancel, h⟩ := bind_eq_ok.1 h
      obtain ⟨-, rfl⟩ := Prod.mk.inj (pure_eq_ok.1 h)
      obtain ⟨hp, hidle₂, -⟩ := spares_of_propagate hs.kempt hprop
      exact (finishes_of_cancelUntil hp.kempt (.inl hidle₂) hcancel).after (hto.trans hp.toUpholds)

/-- Propagating facts at the ground level. -/
theorem finishes_of_propagateFacts (hk : e.Kempt had) (hground : e.trail.level = 0)
    (h : e.propagateFacts = .ok (b, e')) : e.Finishes had e' := by
  rw [propagateFacts, bind_eq_ok] at h
  obtain ⟨⟨failed, e₁⟩, hprop, h⟩ := h
  obtain ⟨-, rfl⟩ := Prod.mk.inj (pure_eq_ok.1 h)
  exact finishes_of_propagate hk hground hprop

/-- A given constraint is stored between two calls. -/
theorem finishes_of_addGiven {kind : Kind} {as : Array Lit} {h : Handle} {db : Database}
    {store : Store} (hk : e.Kempt had) (hground : e.trail.level = 0) (hidle : e.Idle)
    (hkind : ∀ x k, kind ≠ .learnt x k)
    (hwf : (⟨kind, as⟩ : Constraint).WellFormed e.trail.varCount)
    (hadd : e.database.addGiven e.store kind as = .ok (h, db, store))
    (hw : { e with database := db, network := { e.network with store } }.watch h = .ok e') :
    e.Finishes had e' := by
  obtain ⟨hu, htrail⟩ := upholds_of_addGiven hk hground hkind hwf hadd hw
  refine ⟨hu, htrail ▸ hground, ?_⟩
  rw [Idle, htrail]
  exact hidle

/-- Adding what is left of a clause. -/
theorem finishes_of_addReduced (hk : e.Kempt had) (hground : e.trail.level = 0) (hidle : e.Idle)
    (h : e.addReduced lits = .ok (b, e')) : e.Finishes had e' := by
  obtain ⟨left, hmem, hknown, hred⟩ := reduced_of_addReduced hk.valid h
  cases hred with
  | tautology | satisfied | falsified => exact .refl hk hground hidle
  | fact _ hfact hprop =>
      obtain ⟨hu, hlevel⟩ := upholds_of_addFact hk hfact
      exact (finishes_of_propagateFacts hu.kempt (hlevel.trans hground) hprop).after hu
  | stored htwo hdistinct _ hstore =>
      obtain ⟨⟨c, db, store⟩, hadd, hwatch⟩ := bind_eq_ok.1 hstore
      exact finishes_of_addGiven hk hground hidle (fun _ _ hno => by cases hno)
        ⟨hdistinct, fun m hm => hknown m ((hmem m).1 hm).1, by simpa [Constraint.size] using htwo,
          by simp⟩ hadd hwatch

/-- Adding a clause. -/
theorem finishes_of_addClause (hk : e.Kempt had) (hidle : e.Idle)
    (h : e.addClause lits = .ok (b, e')) : e.Finishes had e' := by
  simp only [addClause, bind_eq_ok, require_eq_ok, Trail.isGround, beq_iff_eq] at h
  obtain ⟨-, hground, h⟩ := h
  split at h
  next =>
      obtain ⟨⟨implied, e₁⟩, himplied, h⟩ := bind_eq_ok.1 h
      have hs := finishes_of_implies hk hidle himplied
      cases implied with
      | true =>
          obtain ⟨-, rfl⟩ := Prod.mk.inj (pure_eq_ok.1 h)
          exact hs
      | false => exact (finishes_of_addReduced hs.kempt hs.ground hs.idle h).after hs.toUpholds
  next => exact finishes_of_addReduced hk hground hidle h

/-! ## At-most constraints -/

/-- Adding several facts. -/
theorem upholds_of_addFacts : ∀ {ls : List Lit} {e : Engine}, e.Kempt had →
    ls.foldlM (fun e l => addFact e l.neg) e = .ok e' →
    e.Upholds had e' ∧ e'.trail.level = e.trail.level := by
  intro ls
  induction ls with
  | nil =>
      intro e hk h
      rw [List.foldlM_nil, pure_eq_ok] at h
      exact h ▸ ⟨.refl hk, rfl⟩
  | cons l rest ih =>
      intro e hk h
      rw [List.foldlM_cons, bind_eq_ok] at h
      obtain ⟨e₁, hfact, h⟩ := h
      obtain ⟨hu, hlevel⟩ := upholds_of_addFact hk hfact
      obtain ⟨hu', hlevel'⟩ := ih hu.kempt h
      exact ⟨hu.trans hu', hlevel'.trans hlevel⟩

/-- Adding an at-most constraint. -/
theorem finishes_of_addAtMost {bound : Nat} (hk : e.Kempt had) (hidle : e.Idle)
    (h : e.addAtMost lits bound = .ok (b, e')) : e.Finishes had e' := by
  obtain ⟨hground, r, ht, hb⟩ := bounded_of_addAtMost hk.valid h
  cases hb with
  | implied | refuted => exact .refl hk hground hidle
  | facts _ hfacts hprop =>
      obtain ⟨hu, hlevel⟩ := upholds_of_addFacts hk hfacts
      exact (finishes_of_propagateFacts hu.kempt (hlevel.trans hground) hprop).after hu
  | stored hbounds hadd hwatch =>
      exact finishes_of_addGiven hk hground hidle (fun _ _ hno => by cases hno)
        (ht.wellFormed hbounds) hadd hwatch

/-! ## Simplifying -/

/-- The stored constraint under the handle has the literal. -/
def Mentions (e : Engine) (h : Handle) (b : Lit) : Prop :=
  ∃ c, e.store.get? h = some c ∧ b ∈ c.lits.toList

/-- Propagation rearranges constraints only. -/
theorem Mentions.of_propagate {failed : Option Handle} {h : Handle} {b : Lit} (hk : e.Kempt had)
    (hp : e.propagate = .ok (failed, e')) (hm : e'.Mentions h b) : e.Mentions h b := by
  obtain ⟨n, hn, rfl⟩ := propagate_eq_ok.1 hp
  obtain ⟨c', hc', hb⟩ := hm
  obtain ⟨c, hc, hsame⟩ := (Network.spread_of_propagate hk.aligned hn).advances.store.back h c' hc'
  exact ⟨c, hc, hsame.mem_iff.1 hb⟩

/-- Propagation without a conflict, and the tidying up after it. -/
theorem upholds_of_simplifyAfter (hk : e.Kempt had) (hhad : ∀ h b, e.Mentions h b → had h b)
    (hprop : e.propagate = .ok (none, e')) (hsimp : e'.simplify = .ok e'') :
    e.Upholds had e'' ∧ e''.Idle ∧ e''.trail.level = e.trail.level := by
  obtain ⟨hs, hidle, hlevel, -⟩ := spares_of_propagate hk hprop
  obtain ⟨hu, hc⟩ := upholds_of_simplify hs.kempt
    (fun h c b hget hb => hhad h b (.of_propagate hk hprop ⟨c, hget, hb⟩)) hsimp
  exact ⟨hs.toUpholds.trans hu, idle_of_cleared hidle hc, hc.level_eq.trans hlevel⟩

/-- Preprocessing. -/
theorem finishes_of_preprocess (hk : e.Kempt had) (hhad : ∀ h b, e.Mentions h b → had h b)
    (h : e.preprocess = .ok (b, e')) : e.Finishes had e' := by
  simp only [preprocess, bind_eq_ok, require_eq_ok, Trail.isGround, beq_iff_eq] at h
  obtain ⟨-, hground, ⟨failed, e₁⟩, hprop, h⟩ := h
  cases failed with
  | some c =>
      obtain ⟨-, rfl⟩ := Prod.mk.inj (pure_eq_ok.1 h)
      exact finishes_of_propagate hk hground hprop
  | none =>
      obtain ⟨e₂, hsimp, h⟩ := bind_eq_ok.1 h
      obtain ⟨-, rfl⟩ := Prod.mk.inj (pure_eq_ok.1 h)
      obtain ⟨hu, hidle, hlevel⟩ := upholds_of_simplifyAfter hk hhad hprop hsimp
      exact ⟨hu, hlevel.trans hground, hidle⟩

/-! ## Searching -/

/-- Opening several levels. -/
theorem spares_of_openLevels (hk : e.Kempt had) (hidle : e.Idle) : ∀ k : Nat,
    e.Spares had { e with network := { e.network with trail := Trail.openLevel^[k] e.trail } } ∧
      Idle { e with network := { e.network with trail := Trail.openLevel^[k] e.trail } } := by
  intro k
  induction k with
  | zero => exact ⟨.refl hk, hidle⟩
  | succ k ih =>
      rw [Function.iterate_succ_apply']
      exact ⟨ih.1.trans (spares_of_openLevel ih.1.kempt ih.2), ih.2⟩

/-- Choosing the next decision. -/
theorem spares_of_choose {as : Array Lit} {c : Choosing} (hk : e.Kempt had) (hidle : e.Idle)
    (h : e.choose as = .ok (c, e')) : e.Spares had e' ∧ e'.Idle := by
  obtain ⟨k, -, a, d, m, -, rfl⟩ := opened_of_choose h
  obtain ⟨hs, hidle'⟩ := spares_of_openLevels hk hidle k
  exact ⟨hs.noted rfl rfl (.refl _), hidle'⟩

/-- The part of a round of a search up to the choice of what to decide. -/
theorem upholds_of_chosen {e₁ e₂ e₃ : Engine} {as : Array Lit} {c : Choosing} (hk : e.Kempt had)
    (hhad : ∀ h b, e.Mentions h b → had h b) (hprop : e.propagate = .ok (none, e₁))
    (hsimp : e₁.simplify = .ok e₂) (hred : e₂.reduce = .ok e₃)
    (hchoose : e₃.choose as = .ok (c, e')) :
    e.Upholds had e' ∧ e'.Idle := by
  obtain ⟨hu, hidle, -⟩ := upholds_of_simplifyAfter hk hhad hprop hsimp
  obtain ⟨hu', hc⟩ := upholds_of_reduce hu.kempt hred
  obtain ⟨hs, hidle'⟩ := spares_of_choose hu'.kempt (idle_of_cleared hidle hc) hchoose
  exact ⟨(hu.trans hu').trans hs.toUpholds, hidle'⟩

/-- Decaying activities. -/
theorem spares_of_decay (hk : e.Kempt had) : e.Spares had e.decay.countTowardsLimit := by
  have hd : e.Spares had e.decay := .bookkeeping hk rfl rfl ⟨rfl, rfl, rfl, rfl⟩
  obtain ⟨_, _, hcount⟩ := exists_countTowardsLimit e.decay
  rw [hcount]
  exact hd.noted rfl rfl (.refl _)

/-- Learning from a conflict, or finding out that there is no model. -/
theorem upholds_of_learnFrom {failed : Handle} (hk : e.Kempt had) (hidle : e.Idle)
    (hconf : e.network.Conflict failed) (h : e.learnFrom failed = .ok (b, e')) :
    e.Upholds had e' ∧ (b = false → e'.Idle) := by
  cases learnsFrom_of_learnFrom h with
  | unsatisfiable hanalyze =>
      obtain ⟨hs, htrail, -⟩ := spares_of_analyze hk hconf hanalyze
      refine ⟨hs.toUpholds, fun _ => ?_⟩
      rw [Idle, htrail]
      exact hidle
  | unit hanalyze hcancel hl =>
      obtain ⟨hs, -, -⟩ := spares_of_analyze hk hconf hanalyze
      have hs₂ := hs.trans (spares_of_cancelUntil hs.kempt hcancel)
      have hu := (upholds_of_learn hs₂.kempt rfl (fun hno => absurd rfl hno) hl).1
      exact ⟨(hs₂.toUpholds.trans hu).trans (spares_of_decay hu.kempt).toUpholds, by simp⟩
  | @clause e₁ e₂ e₃ r lits l hanalyze hcancel hfirst hl =>
      obtain ⟨hs, -, hlearn⟩ := spares_of_analyze hk hconf hanalyze
      -- going back leaves the clause learnable, and leads to the level where it is to be learnt
      obtain ⟨hcan, hlt⟩ := hlearn r lits rfl
      have hs₂ := spares_of_cancelUntil hs.kempt hcancel
      have hlevel : e₂.trail.level = r := by
        rw [level_of_cancelUntil hcancel, Nat.min_eq_left (Nat.le_of_lt hlt)]
      have hu := (upholds_of_learn hs₂.kempt hfirst
        (fun _ => hlevel.symm ▸ hs₂.learnable hcan) hl).1
      exact ⟨((hs.trans hs₂).toUpholds.trans hu).trans (spares_of_decay hu.kempt).toUpholds,
        by simp⟩

/-- Counting a conflict. -/
theorem Spares.counted (h : e.Spares had e') :
    e.Spares had { e' with conflicts := e'.conflicts + 1 } := h.noted rfl rfl (.refl _)

/-- In every round of a search the engine is kempt, if it is remembered which literals the
constraints have had in this round and the ones before. -/
theorem upholds_of_round (hk : e₀.Kempt had)
    (hhad : ∀ x, Round task e₀ x → Round task x e → ∀ h b, x.Mentions h b → had h b)
    (hr : Round task e₀ e) : e₀.Upholds had e := by
  induction hr with
  | first => exact .refl hk
  | decide hr hprop hsimp hred hchoose hdecide ih =>
      -- what is remembered of this round counts for the rounds before as well
      have hu := ih fun x hx hx' => hhad x hx (hx'.decide hprop hsimp hred hchoose hdecide)
      have hlast := hhad _ hr (Round.first.decide hprop hsimp hred hchoose hdecide)
      obtain ⟨hu', hidle⟩ := upholds_of_chosen hu.kempt hlast hprop hsimp hred hchoose
      exact (hu.trans hu').trans (spares_of_decideLit hu'.kempt hidle hdecide).toUpholds
  | learn hr hprop hlearn ih =>
      have hu := ih fun x hx hx' => hhad x hx (hx'.learn hprop hlearn)
      obtain ⟨hs, hidle, -, hconf⟩ := spares_of_propagate hu.kempt hprop
      have hcount := hs.counted
      exact (hu.trans hcount.toUpholds).trans
        (upholds_of_learnFrom hcount.kempt hidle (hconf _ rfl) hlearn).1
  | restart hr hprop hcancel ih =>
      have hu := ih fun x hx hx' => hhad x hx (hx'.restart hprop hcancel)
      have hs := (spares_of_propagate hu.kempt hprop).1
      have hs' := hs.trans (spares_of_cancelUntil hs.kempt hcancel)
      exact (hu.trans hs'.toUpholds).noted rfl rfl (.refl _)

/-- A search that answers is at a place where nothing waits. -/
theorem upholds_of_close (hk : e.Kempt had) (hhad : ∀ h b, e.Mentions h b → had h b)
    (hc : Close task e a e') : e.Upholds had e' ∧ e'.Idle := by
  cases hc with
  | interrupted hprop hcancel =>
      obtain ⟨hs, hidle, -⟩ := spares_of_propagate hk hprop
      exact ⟨(hs.trans (spares_of_cancelUntil hs.kempt hcancel)).toUpholds,
        hs.kempt.idle_of_cancelUntil hcancel (.inl hidle)⟩
  | failed hprop hsimp hred hchoose => exact upholds_of_chosen hk hhad hprop hsimp hred hchoose
  | complete hprop hsimp hred hchoose => exact upholds_of_chosen hk hhad hprop hsimp hred hchoose
  | refuted hprop hlearn =>
      obtain ⟨hs, hidle, -, hconf⟩ := spares_of_propagate hk hprop
      have hcount := hs.counted
      obtain ⟨hu, hidle'⟩ := upholds_of_learnFrom hcount.kempt hidle (hconf _ rfl) hlearn
      exact ⟨hcount.toUpholds.trans hu, hidle' rfl⟩
  | canceled hprop =>
      obtain ⟨hs, hidle, -⟩ := spares_of_propagate hk hprop
      exact ⟨hs.counted.toUpholds, hidle⟩

/-- A search that leads from `e` to `e'` may go through a round that begins in `x`. -/
def Traverses (restart : RestartStrategy) (budget : Budget) (as : List Lit) (e e' x : Engine) :
    Prop :=
  ∃ a e₁ e₂ e₃, Round (e.order restart budget as) e.opened x ∧
    Round (e.order restart budget as) x e₁ ∧ Close (e.order restart budget as) e₁ a e₂ ∧
    e₂.cancelUntil 0 = .ok e₃ ∧ e' = e₃.report .searchEnded

/-- A search, whatever its answer. -/
theorem finishes_of_search {σ : Type} {st st' : σ} {handler : Handler (StateM σ)}
    {restart : RestartStrategy} {budget : Budget} (hk : e.Kempt had)
    (hhad : ∀ x, Traverses restart budget lits e e' x → ∀ h b, x.Mentions h b → had h b)
    (h : Returns (e.search restart budget handler lits) st (a, e') st') : e.Finishes had e' := by
  obtain ⟨e₁, e₂, e₃, hround, hclose, hcancel, rfl⟩ := close_of_search h
  have hpassed : ∀ x, Round (e.order restart budget lits) e.opened x →
      Round (e.order restart budget lits) x e₁ → ∀ h b, x.Mentions h b → had h b :=
    fun x hx hx' => hhad x ⟨a, e₁, e₂, e₃, hx, hx', hclose, hcancel, rfl⟩
  have hopened : e.Upholds had e.opened := (Upholds.refl hk).noted rfl rfl (.refl _)
  have hu₁ := hopened.trans (upholds_of_round hopened.kempt hpassed hround)
  obtain ⟨hu₂, hidle⟩ := upholds_of_close hu₁.kempt (hpassed e₁ hround .first) hclose
  have hs := (finishes_of_cancelUntil hu₂.kempt (.inl hidle) hcancel).after (hu₁.trans hu₂)
  exact ⟨hs.noted rfl rfl (.refl _), hs.ground, hs.idle⟩

/-! ## Going back to a snapshot -/

/-- Loading a snapshot finds what it counts on. What holds in which worlds does not matter for
this. -/
def Retrieves (e : Engine) (s : Snapshot) : Prop :=
  e.settings.incremental = true ∧ e.Restorable { s with ok := false }

/-- Steps keep what a snapshot counts on. -/
theorem Retrieves.upholds {s : Snapshot} (hr : e.Retrieves s) (h : e.Upholds had e') :
    e'.Retrieves s :=
  ⟨h.settings ▸ hr.1, hr.2.grown (h.grown hr.1) h.varCount⟩

/-- A snapshot counts on what is there when it is taken. -/
theorem retrieves_of_snapshot {s : Snapshot} {ok : Bool} (hk : e.Kempt had)
    (hi : e.settings.incremental = true) (h : e.snapshot ok = .ok s) : e.Retrieves s := by
  obtain ⟨-, rfl⟩ := snapshot_eq_ok.1 h
  exact ⟨hi, Nat.le_refl _, by simp, Nat.le_refl _, by simp, fun _ _ hc _ => hk.aligned.formed hc,
    by simp⟩

/-- What going back to a snapshot leaves: older snapshots can be loaded still. -/
structure Reverts (had : Handle → Lit → Prop) (s : Snapshot) (e e' : Engine) : Prop where
  kempt : e'.Kempt had
  ground : e'.trail.level = 0
  idle : e'.Idle
  retrieves : ∀ s', s'.Older s → e.Retrieves s' → e'.Retrieves s'

/-- A call after going back. -/
theorem Reverts.finishes {s : Snapshot} (h : Reverts had s e e') (h' : e'.Finishes had e'') :
    Reverts had s e e'' :=
  ⟨h'.kempt, h'.ground, h'.idle, fun s' ho hr => (h.retrieves s' ho hr).upholds h'.toUpholds⟩

/-- Discarding what is younger than a snapshot. -/
theorem reverts_of_discardSince {s : Snapshot} (hk : e.Kempt had) (hr : e.Retrieves s)
    (h : e.discardSince s = .ok e') : Reverts had s e e' := by
  obtain ⟨hi, hs⟩ := hr
  -- the answer that a snapshot holds does not matter for what is discarded
  have h' : e.discardSince { s with ok := false } = .ok e' := h
  obtain ⟨d₁, db, sw, index, d₂, hd, rfl⟩ := (discardSince_eq_ok hs).1 h'
  have hsane : e.emptied.Sane e.dead e.network.index.line := hk.aligned.rewindAll (not_dead hi)
  obtain ⟨hrem, -⟩ := hd.removal hsane hk.listed
  have hclear := hd.cleared hsane hk.listed
  have hground : (e.discarded { s with ok := false } db sw index d₂).trail.level = 0 :=
    hclear.level_eq
  have hal := (hd.sane hsane hk.listed hi hs).aligned
  have htr : Network.Traced had (sw.network e.emptied) := by
    have hemptied : e.emptied.Traced had := hk.traced
    exact hemptied.thinned hrem.thinned False.elim
  refine ⟨⟨hal.dead_mono (fun l hl => absurd hl (not_dead hi l)) fun l (hl : dead _ l) => hl.2.1,
    hd.tended hsane hk.listed hs hk.aligned.lines hk.tended, hrem.listed,
    Network.reasoned_of_ground hal.trail hground, Network.layered_of_ground hal.trail hground,
    fun l x hx => ?_⟩, hground, ?_, fun s' ho hr' => ⟨hr'.1, ?_⟩⟩
  · -- the watchers that are left were there before
    have hx' : x ∈ (WatchIndex.truncateVars index s.vars).line l := hx
    rw [WatchIndex.line_truncateVars] at hx'
    split at hx'
    next => exact htr l x ((WatchIndex.lines_of_unwatch_all hrem.removed hd.unwatch l).1 x hx')
    next => cases hx'
  · show sw.trail.head = sw.trail.lits.size
    rw [hd.empty, hclear.head]
    rfl
  · -- the answer is left out of what an older snapshot needs, too
    have holder : Snapshot.Older { s' with ok := false } { s with ok := false } :=
      ⟨ho.vars, ho.clauses, ho.learnts, ho.units⟩
    have hcut := (hd.cut hsane hk.listed hs).restorable holder hr'.2
    exact hcut.grown (.of_same (.refl _) (.refl _)) (Nat.le_refl _)

/-- Trying a fact at the ground level. -/
theorem spares_of_tryAssign {t : Trail} (hk : e.Kempt had)
    (h : e.trail.tryAssign l none = .ok (b, t)) :
    e.Spares had { e with network := { e.network with trail := t } } ∧
      t.level = e.trail.level ∧ (b = false → t = e.trail) := by
  rcases tryAssign_eq_ok hk.valid h with ⟨-, -, rfl⟩ | ⟨-, -, rfl⟩ | ⟨rfl, hassign⟩
  · exact ⟨.refl hk, rfl, fun _ => rfl⟩
  · exact ⟨.refl hk, rfl, fun _ => rfl⟩
  · obtain ⟨hs, hlevel⟩ := spares_of_assign hk hassign
    exact ⟨hs, hlevel, by simp⟩

/-- Replaying the facts that are left. -/
theorem finishes_of_replay : ∀ {facts : List Lit} {e : Engine}, e.Kempt had → e.trail.level = 0 →
    e.Idle → replay facts e = .ok (b, e') → e.Finishes had e' := by
  intro facts
  induction facts with
  | nil =>
      intro e hk hground hidle h
      obtain ⟨-, rfl⟩ := Prod.mk.inj (pure_eq_ok.1 h)
      exact .refl hk hground hidle
  | cons l rest ih =>
      intro e hk hground hidle h
      cases replay_cons_eq_ok.1 h with
      | refused htry =>
          -- a unit that is false already is refused, and nothing has changed
          obtain ⟨hs, hlevel, hsame⟩ := spares_of_tryAssign hk htry
          obtain rfl := hsame rfl
          exact ⟨hs.toUpholds, hground, hidle⟩
      | failed htry hprop =>
          obtain ⟨hs, hlevel, -⟩ := spares_of_tryAssign hk htry
          exact (finishes_of_propagate hs.kempt (hlevel.trans hground) hprop).after hs.toUpholds
      | next htry hprop h =>
          obtain ⟨hs, hlevel, -⟩ := spares_of_tryAssign hk htry
          have hp := finishes_of_propagate hs.kempt (hlevel.trans hground) hprop
          exact (ih hp.kempt hp.ground hp.idle h).after (hs.toUpholds.trans hp.toUpholds)

/-- Going back to a snapshot. -/
theorem reverts_of_rollback {s : Snapshot} (hk : e.Kempt had) (hr : e.Retrieves s)
    (h : e.rollback s = .ok (b, e')) : Reverts had s e e' := by
  obtain ⟨e₁, hdiscard, h⟩ := bind_eq_ok.1 h
  have hback := reverts_of_discardSince hk hr hdiscard
  split at h
  next => exact hback.finishes (finishes_of_replay hback.kempt hback.ground hback.idle h)
  next =>
      obtain ⟨-, rfl⟩ := Prod.mk.inj (pure_eq_ok.1 h)
      exact hback

end Engine

end CardSat
