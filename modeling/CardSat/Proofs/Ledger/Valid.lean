import CardSat.Proofs.Engine.Adding
import CardSat.Proofs.Engine.Rollback
import CardSat.Proofs.Engine.Variables
import CardSat.Proofs.Ledger
import CardSat.Proofs.Solver

set_option autoImplicit false

/-! # The ledger is right

`Valid` ties a solver to its ledger: while the solver is `ok` its engine is at rest, and the worlds
of the problem are those that meet the demands in force. If at-most constraints may repeat literals,
the problem may have fewer worlds than that, but never more. Every live snapshot can be loaded, and
brings back the demands of its time (`Recalls`).

Each call keeps `Valid` (`valid_of_call`), and so does loading, so it holds in all runs
(`valid_of_run`).

## How the proof goes

A call does its work only while the solver is `ok`, and notes whether it still is (`whileOk`). So
adding is one lemma for all demands (`valid_of_whileOk`), with the worlds of the constraint and what
the engine takes in for it as parameters. A search is not told what its answer is worth before it
ends, and `Concluded` is what each answer leaves behind.

The two directions between the problem and the demands are separate fields. That a world of the
problem meets the demands is what makes models right, and it is kept by every call. That a world
which meets the demands solves the problem is what makes refutations right, and it needs that no
surplus was counted, which is a rule of the run.
-/

namespace CardSat

/-! ## Live snapshots -/

/-- A live snapshot stands for the demands that were in force when it was taken. -/
structure Recalls (plain : Bool) (e : Engine) (s : Snapshot) (ds : List Demand) : Prop where
  incremental : e.settings.incremental = true
  restorable : e.Restorable s
  sound : s.ok = true → ∀ w : World, e.Kept s w → w.Meets ds
  exact : plain = true → s.ok = true → ∀ w : World, w.Meets ds → e.Kept s w
  refuted : plain = true → s.ok = false → ∀ w : World, ¬ w.Meets ds

namespace Recalls

variable {plain : Bool} {e e' : Engine} {s s' : Snapshot} {ds : List Demand}

/-- Steps that only add keep what is recalled. -/
theorem evolves (h : Recalls plain e s ds) (he : e.Evolves e') : Recalls plain e' s ds := by
  have hg := he.grown h.incremental
  have hk : ∀ w, e'.Kept s w ↔ e.Kept s w := fun w => Engine.kept_of_grown h.restorable hg
  exact ⟨he.settings ▸ h.incremental, h.restorable.grown hg he.varCount,
    fun hok w hw => h.sound hok w ((hk w).1 hw), fun hp hok w hw => (hk w).2 (h.exact hp hok w hw),
    h.refuted⟩

/-- Going back to a younger snapshot keeps it. -/
theorem cut (h : Recalls plain e s ds) (hc : Engine.Cut s' e e') (ho : s.Older s') :
    Recalls plain e' s ds := by
  have hk : ∀ w, e'.Kept s w ↔ e.Kept s w := fun w => hc.kept_iff ho
  exact ⟨hc.settings ▸ h.incremental, hc.restorable ho h.restorable,
    fun hok w hw => h.sound hok w ((hk w).1 hw), fun hp hok w hw => (hk w).2 (h.exact hp hok w hw),
    h.refuted⟩

end Recalls

/-! ## Solvers and ledgers -/

/-- A solver between two calls, and what is known of it. -/
structure Valid (rules : Rules) (s : Solver) (L : Ledger) : Prop where
  fit : s.engine.Fit fun _ => False
  ground : s.engine.trail.level = 0
  decides : rules.decisionVars = true → ∀ v : Var, v.index < s.engine.trail.varCount →
    s.engine.decisions.decides v = some true
  resting : s.ok = true → s.engine.Resting (¬ L.overlooked)
  sound : s.ok = true → ∀ w : World, s.engine.Problem w → w.Meets L.added
  exact : rules.plain = true → s.ok = true → ∀ w : World, w.Meets L.added → s.engine.Problem w
  refuted : rules.plain = true → s.ok = false → ∀ w : World, ¬ w.Meets L.added
  overlooked : s.ok = true → L.overlooked → ∀ w, ¬ s.engine.Problem w
  uncanceled : rules.uncanceled = true → ¬ L.overlooked
  older : L.saved.Pairwise fun p q => q.1.Older p.1
  recalls : ∀ p ∈ L.saved, Recalls rules.plain s.engine p.1 p.2

variable {rules : Rules} {s s' : Solver} {L L' : Ledger} {b : Bool}

/-! ## The first solver -/

/-- A new solver and an empty ledger. -/
theorem valid_of_new {settings : Settings} (h : Solver.new settings = .ok s) :
    Valid rules s {} := by
  simp only [Solver.new, bind_eq_ok, pure_eq_ok] at h
  obtain ⟨e, he, rfl⟩ := h
  obtain ⟨hr, hcount, hall⟩ := Engine.resting_of_empty he
  refine ⟨hr.fit.anti fun _ => False.elim, hr.ground, fun _ v hv => ?_, fun _ => hr,
    fun _ w _ d hd => absurd hd List.not_mem_nil, fun _ _ w _ => hall w, by simp,
    fun _ => False.elim, fun _ => id, List.Pairwise.nil, by simp⟩
  have : v.index < e.trail.varCount := hv
  omega

/-- A new variable demands nothing. -/
theorem valid_of_newVar {v : Var} {negated decision : Bool} (hv : Valid rules s L)
    (hdecision : rules.decisionVars = true → decision = true)
    (h : s.newVar negated decision = .ok (v, s')) : Valid rules s' L := by
  obtain ⟨e, he, rfl⟩ := Solver.newVar_eq_ok.1 h
  have hn := Engine.newVar_of_newVar hv.fit he
  refine ⟨hn.fit, hn.level.trans hv.ground, fun hr x hx => ?_, fun hok => ?_, fun hok w hw => ?_,
    fun hp hok w hw => ?_, hv.refuted, fun hok ho w hw => ?_, hv.uncanceled, hv.older,
    fun p hp => (hv.recalls p hp).evolves hn.evolves⟩
  · rw [hn.decides]
    split
    next => rw [hdecision hr]
    next hne =>
        refine hv.decides hr x ?_
        have hx' : x.index < e.trail.varCount := hx
        have hcount : e.trail.varCount = s.engine.trail.varCount + 1 := hn.varCount
        -- a variable that is not new was there before
        by_contra hge
        have heq : x.index = s.engine.trail.varCount := by omega
        exact hne (hn.var ▸ congrArg Var.mk heq)
  · have hrest := hv.resting hok
    exact (Engine.newVar_of_newVar hrest.fit he).resting hrest
  · exact hv.sound hok w (hn.evolves.problem w hw)
  · exact (Engine.newVar_of_newVar (hv.resting hok).fit he).fit.problem (hv.exact hp hok w hw)
  · exact hv.overlooked hok ho w (hn.evolves.problem w hw)

/-! ## Adding -/

/-- A step that adds something to the problem, or finds out that there is no problem left. -/
theorem valid_of_whileOk {step : Engine → Checked (Bool × Engine)} {news : World → Prop}
    {ds : List Demand} (hv : Valid rules s L) (h : s.whileOk step = .ok (b, s'))
    (hds : ∀ w : World, w.Meets ds ↔ w.Meets L.added ∧ news w)
    (hstep : ∀ e', s.engine.Resting (¬ L.overlooked) → step s.engine = .ok (b, e') →
      ∃ left, s.engine.Adds left (¬ L.overlooked) b e' ∧
        (∀ w, s.engine.Problem w → left w → news w) ∧
        (rules.plain = true → ∀ w, s.engine.Problem w → news w → left w)) :
    Valid rules s' { L with added := ds } ∧ s'.ok = b := by
  rcases Solver.whileOk_eq_ok.1 h with ⟨hok, e, he, rfl⟩ | ⟨hok, rfl, rfl⟩
  · have hr := hv.resting hok
    obtain ⟨left, ha, hnews, hleft⟩ := hstep e hr he
    refine ⟨⟨ha.fit.anti fun _ => False.elim, ha.ground, fun hp v hlt => ?_, fun hb => ?_,
      fun hb w hw => ?_, fun hp hb w hw => ?_, fun hp hb w hw => ?_, fun _ ho w hw => ?_,
      hv.uncanceled, hv.older, fun p hp => (hv.recalls p hp).evolves ha.evolves⟩, rfl⟩
    · rw [ha.decides]
      exact hv.decides hp v (ha.varCount ▸ hlt)
    · subst hb
      exact ha.resting
    · have hw₀ := ha.evolves.problem w hw
      exact (hds w).2 ⟨hv.sound hok w hw₀, hnews w hw₀ (ha.news hb w hw)⟩
    · subst hb
      obtain ⟨hold, hd⟩ := (hds w).1 hw
      have hw₀ := hv.exact hp hok w hold
      exact ha.problem_iff.2 ⟨hw₀, hleft hp w hw₀ hd⟩
    · obtain ⟨hold, hd⟩ := (hds w).1 hw
      have hw₀ := hv.exact hp hok w hold
      exact ha.refuted hb w hw₀ (hleft hp w hw₀ hd)
    · exact hv.overlooked hok ho w (ha.evolves.problem w hw)
  -- nothing is done by a solver that is not `ok`
  · have hno : ∀ {P : Prop}, s.ok = true → P := fun hyes => by
      rw [hok] at hyes
      cases hyes
    exact ⟨⟨hv.fit, hv.ground, hv.decides, hv.resting, fun hyes => hno hyes,
      fun _ hyes => hno hyes, fun hp _ w hw => hv.refuted hp hok w ((hds w).1 hw).1,
      hv.overlooked, hv.uncanceled, hv.older, hv.recalls⟩, hok⟩

/-- A clause is added. -/
theorem valid_of_addClause {lits : List Lit} {ds : List Demand} (hv : Valid rules s L)
    (hds : ∀ w : World, w.Meets ds ↔ w.Meets L.added ∧ w.clauseHolds lits = true)
    (h : s.addClause lits = .ok (b, s')) :
    Valid rules s' { L with added := ds } ∧ s'.ok = b :=
  valid_of_whileOk hv h hds fun _ hr he =>
    ⟨_, Engine.adds_of_addClause hr he, fun _ _ => id, fun _ _ _ => id⟩

/-- An at-most constraint is added. -/
theorem valid_of_addAtMost {lits : List Lit} {bound : Nat} {ds : List Demand}
    (hv : Valid rules s L) (hlength : lits.length < 2 ^ 63)
    (hplain : rules.plain = true → lits.Nodup ∧ bound < 2 ^ 63)
    (hds : ∀ w : World, w.Meets ds ↔ w.Meets L.added ∧ w.atMostHolds lits bound = true)
    (h : s.addAtMost lits bound = .ok (b, s')) :
    Valid rules s' { L with added := ds } ∧ s'.ok = b := by
  refine valid_of_whileOk hv h hds fun e' hr he => ?_
  obtain ⟨r, ht, ha⟩ := Engine.adds_of_addAtMost hr he
  refine ⟨_, ha, fun w hw hleft => ?_, fun hp w hw hd => ?_⟩
  · exact decide_eq_true (ht.count_le hlength (fun l hl => hr.holds hw l hl) hleft)
  · obtain ⟨hnd, hb⟩ := hplain hp
    exact ht.countP_le hlength (fun l hl => hr.holds hw l hl) hb hnd (of_decide_eq_true hd)

/-- An at-least constraint is added, as what it is turned into. -/
theorem valid_of_addAtLeast {lits : List Lit} {bound : Nat} {ds : List Demand}
    (hv : Valid rules s L) (hlength : lits.length < 2 ^ 63)
    (hds : ∀ w : World, w.Meets ds ↔ w.Meets L.added ∧ w.atLeastHolds lits bound = true)
    (h : Receiver.addAtLeast s lits bound = .ok (b, s')) :
    Valid rules s' { L with added := ds } ∧ s'.ok = b := by
  have hle := Lit.length_sortDistinct_le lits
  simp only [Receiver.addAtLeast] at h
  split at h
  next hlt =>
      have hadd : s.addClause [] = .ok (b, s') := h
      refine valid_of_addClause hv (fun w => ?_) hadd
      rw [hds, World.atLeastHolds_of_lt hlt]
      rfl
  next hge =>
      have hb : bound ≤ (Lit.sortDistinct lits).length := by omega
      refine valid_of_addAtMost hv (by rw [List.length_map]; omega) (fun _ => ⟨?_, by omega⟩)
        (fun w => by rw [hds, World.atLeastHolds_iff hb]) h
      exact Lit.nodup_map_neg (Lit.nodup_sortDistinct lits)

/-- Every demand is added as it is meant. -/
theorem valid_of_demand {d : Demand} (hv : Valid rules s L) (hlength : d.lits.length < 2 ^ 63)
    (hplain : rules.plain = true → d.Plain) (h : s.demand d = .ok (b, s')) :
    Valid rules s' { L with added := d :: L.added } := by
  have hds : ∀ w : World, w.Meets (d :: L.added) ↔ w.Meets L.added ∧ d.holds w = true := fun w =>
    World.meets_cons
  cases d with
  | clause lits => exact (valid_of_addClause hv hds h).1
  | atMost lits bound => exact (valid_of_addAtMost hv hlength hplain hds h).1
  | atLeast lits bound => exact (valid_of_addAtLeast hv hlength hds h).1
  | exactly lits bound =>
      have hupper {b₁ : Bool} {s₁ : Solver} (h₁ : Receiver.addAtMost s lits bound = .ok (b₁, s₁)) :
          Valid rules s₁ { L with added := .atMost lits bound :: L.added } ∧ s₁.ok = b₁ :=
        valid_of_addAtMost hv hlength hplain (fun w => World.meets_cons) h₁
      rcases Receiver.addExactly_eq_ok.1 h with ⟨s₁, h₁, h⟩ | ⟨h₁, rfl⟩
      · refine (valid_of_addAtLeast (hupper h₁).1 hlength (fun w => ?_) h).1
        rw [hds, World.meets_cons, and_assoc]
        exact and_congr_right fun _ => Bool.and_eq_true_iff
      · -- without the lower bound there is no world left already
        obtain ⟨hv₁, hok₁⟩ := hupper h₁
        have hno : ∀ {P : Prop}, s'.ok = true → P := fun hyes => by
          rw [hok₁] at hyes
          cases hyes
        refine { hv₁ with
          sound := fun hyes => hno hyes
          exact := fun _ hyes => hno hyes
          refuted := fun hp _ w hw => hv₁.refuted hp hok₁ w ?_ }
        obtain ⟨hold, hd⟩ := (hds w).1 hw
        rw [Demand.holds, Bool.and_eq_true] at hd
        exact World.meets_cons.2 ⟨hold, hd.1⟩

/-- Preprocessing demands nothing. -/
theorem valid_of_preprocess (hv : Valid rules s L) (h : s.preprocess = .ok (b, s')) :
    Valid rules s' L :=
  (valid_of_whileOk hv h (fun _ => (and_iff_left trivial).symm) fun _ hr he =>
    ⟨_, Engine.adds_of_preprocess hr he, fun _ _ => id, fun _ _ _ => id⟩).1

/-! ## Solving -/

section

variable {σ : Type} {st st' : σ} {a : Answer} {budget : Budget} {assumptions : List Lit}
  {handler : Handler (StateM σ)}

/-- A solver searches while it is `ok`, and it stops being so when the empty core is found. -/
theorem returns_solve (h : Returns (s.solve budget assumptions handler) st (a, s') st') :
    (s.ok = false ∧ a = .unsat [] ∧ s' = s) ∨
      (s.ok = true ∧ (∃ st₁ st₂, Returns (s.engine.search s.settings.restart budget handler
        assumptions) st₁ (a, s'.engine) st₂) ∧ (s'.ok = false ↔ a = .unsat [])) := by
  simp only [Solver.solve, returns_bind] at h
  obtain ⟨_, st₁, -, h⟩ := h
  split at h
  next hok =>
      simp only [returns_bind, returns_pure] at h
      obtain ⟨⟨a', e⟩, st₂, hsearch, _, _, ⟨rfl, rfl⟩, _, _, -, heq, -⟩ := h
      obtain ⟨rfl, rfl⟩ := Prod.mk.inj heq
      refine Or.inr ⟨hok, ⟨st₁, st₂, hsearch⟩, ?_⟩
      dsimp only
      split
      next => simp
      next hne => simpa using hne
  next hok =>
      simp only [returns_bind, returns_pure] at h
      obtain ⟨_, _, ⟨rfl, rfl⟩, _, _, -, heq, -⟩ := h
      obtain ⟨rfl, rfl⟩ := Prod.mk.inj heq
      exact Or.inl ⟨by simpa using hok, rfl, rfl⟩

/-- What the search of an `ok` solver comes to. -/
theorem concluded_of_solve (hv : Valid rules s L) (hok : s.ok = true) {st₁ st₂ : σ}
    (h : Returns (s.engine.search s.settings.restart budget handler assumptions) st₁
      (a, s'.engine) st₂) :
    s.engine.Reaches s.engine.Problem s'.engine ∧ s'.engine.trail.level = 0 ∧
      (a ≠ .unsat [] → s'.engine.Idle) ∧
      Engine.Concluded s.engine.Problem (¬ L.overlooked) assumptions s.engine s'.engine a :=
  Engine.concluded_of_search (hv.resting hok).fit (hv.resting hok).watching h

/-- Between two calls no decision is open. -/
theorem Valid.decisions_eq_nil (hv : Valid rules s L) : s.engine.trail.decisions = [] :=
  Trail.decisions_of_ground hv.fit.sane.trail hv.ground

/-- A search demands nothing, and notes whether a conflict was overlooked. -/
theorem valid_of_solve (hv : Valid rules s L)
    (hcanceled : rules.uncanceled = true → a ≠ .canceled)
    (h : Returns (s.solve budget assumptions handler) st (a, s') st') :
    Valid rules s' { L with
      overlooked := L.overlooked ∨ (a = .canceled ∧ s'.engine.Overlooks) } := by
  have huncanceled : rules.uncanceled = true →
      ¬ (L.overlooked ∨ (a = .canceled ∧ s'.engine.Overlooks)) := fun hu ho =>
    ho.elim (hv.uncanceled hu) fun hc => hcanceled hu hc.1
  rcases returns_solve h with ⟨hok, rfl, rfl⟩ | ⟨hok, ⟨st₁, st₂, hsearch⟩, hempty⟩
  · have hno : ∀ {P : Prop}, s'.ok = true → P := fun hyes => by
      rw [hok] at hyes
      cases hyes
    exact { hv with
      resting := fun hyes => hno hyes
      overlooked := fun hyes => hno hyes
      uncanceled := huncanceled }
  · obtain ⟨hr, hground, hidle, hc⟩ := concluded_of_solve hv hok hsearch
    -- an empty core is what takes the solver out of order
    have hne : s'.ok = true → a ≠ .unsat [] := fun hyes he => by
      rw [hempty.2 he] at hyes
      cases hyes
    have hrest := hv.resting hok
    refine ⟨hr.fit.anti fun _ => False.elim, hground, fun hp v hlt => ?_, fun hyes => ?_,
      fun _ w hw => hv.sound hok w (hr.evolves.problem w hw),
      fun hp _ w hw => hr.fit.problem (hv.exact hp hok w hw), fun hp hno w hw => ?_,
      fun hyes ho w hw => ?_, huncanceled, hv.older,
      fun p hp => (hv.recalls p hp).evolves hr.evolves⟩
    · rw [hr.decides]
      exact hv.decides hp v (hr.varCount ▸ hlt)
    · refine hr.resting hrest hground (hidle (hne hyes)) fun ho => ?_
      rw [not_or] at ho
      cases a with
      | sat m => exact hc.1 ho.1
      | unsat core => exact hc.2 (fun hnil => hne hyes (congrArg Answer.unsat hnil)) ho.1
      | interrupted x => exact hc ho.1
      | canceled => exact (hc ho.1).resolve_left fun hover => ho.2 ⟨rfl, hover⟩
    · obtain rfl := hempty.1 hno
      exact hc.1.refuted w (hv.exact hp hok w hw) (by simp)
    · rcases ho with ho | ⟨-, x, c, hx, hfalse⟩
      · exact hv.overlooked hok ho w (hr.evolves.problem w hw)
      · exact hr.fit.sound.absurd_of_falsified hr.fit.sane hground hx hfalse w
          (hr.evolves.problem w hw)

/-- The model of an answer is total if every variable may be decided. It makes the assumptions
true, and also the demands, unless a conflict was overlooked. -/
theorem model_of_solve {m : Model} (hv : Valid rules s L) (hd : rules.decisionVars = true)
    (h : Returns (s.solve budget assumptions handler) st (.sat m, s') st') :
    s.ok = true ∧ (∀ v : Var, v.index < s.varCount → ∃ b, m.get? v.index = some b) ∧
      (∀ l ∈ assumptions, m.makesTrue l = true) ∧
      (¬ L.overlooked → ∀ w : World, m.Agrees w → w.Meets L.added) := by
  rcases returns_solve h with ⟨-, ha, -⟩ | ⟨hok, ⟨st₁, st₂, hsearch⟩, -⟩
  · cases ha
  · obtain ⟨-, -, -, -, hassumed, hcomplete⟩ := concluded_of_solve hv hok hsearch
    obtain ⟨htotal, hproblem⟩ := hcomplete (hv.decides hd)
    refine ⟨hok, htotal, fun l hl => ?_, fun hno w hw =>
      hv.sound hok w (hproblem hno (hv.resting hok).placed w hw)⟩
    obtain ⟨i, hi⟩ := List.mem_iff_getElem?.1 hl
    exact hassumed i l hi (by rw [hv.ground]; exact Nat.zero_le i)

/-- A core consists of assumptions that the demands contradict, and with the empty one the solver
stops being `ok`. -/
theorem core_of_solve {core : List Lit} (hv : Valid rules s L) (hp : rules.plain = true)
    (h : Returns (s.solve budget assumptions handler) st (.unsat core, s') st') :
    IsCore (fun w => w.Meets L.added) assumptions core ∧ (core = [] ↔ s'.ok = false) := by
  rcases returns_solve h with ⟨hok, ha, rfl⟩ | ⟨hok, ⟨st₁, st₂, hsearch⟩, hempty⟩
  · obtain rfl := Answer.unsat.inj ha
    exact ⟨⟨by simp, fun w hw => absurd hw (hv.refuted hp hok w)⟩, iff_of_true rfl hok⟩
  · obtain ⟨-, -, -, hc, -⟩ := concluded_of_solve hv hok hsearch
    rw [hv.decisions_eq_nil, List.append_nil] at hc
    refine ⟨⟨hc.sub, fun w hw => hc.refuted w (hv.exact hp hok w hw)⟩, ?_⟩
    rw [hempty, Answer.unsat.injEq]

end

/-! ## Snapshots -/

/-- A new snapshot is live, and the older ones stay so. -/
theorem valid_of_save {snapshot : Snapshot} (hv : Valid rules s L)
    (h : s.save = .ok (snapshot, s')) :
    Valid rules s' { L with saved := (snapshot, L.added) :: L.saved } := by
  obtain ⟨hi, hsnap, rfl⟩ := Solver.save_eq_ok.1 h
  -- a solver that is not ok stands for no world at all
  have hf : s.engine.Fit fun w => s.ok = true ∧ s.engine.Problem w := by
    cases hok : s.ok with
    | true => exact (hv.resting hok).fit.anti fun _ => And.right
    | false => exact hv.fit.anti fun _ hw => by simpa using hw.1
  obtain ⟨hok, hrestorable, hkept⟩ :=
    Engine.restorable_of_snapshot hf (fun hok w hw => ⟨hok, hw⟩) hi hsnap
  have hnew : Recalls rules.plain s.engine snapshot L.added :=
    ⟨hi, hrestorable, fun hyes w hw => hv.sound (hok ▸ hyes) w ((hkept w).1 hw),
      fun hp hyes w hw => (hkept w).2 (hv.exact hp (hok ▸ hyes) w hw),
      fun hp hno => hv.refuted hp (hok ▸ hno)⟩
  have hr := Engine.reaches_of_report hv.fit (.saved snapshot)
  refine ⟨hr.fit, hv.ground, hv.decides, fun hyes => ?_, fun hyes w hw => ?_,
    fun hp hyes w hw => ?_, hv.refuted, fun hyes ho w hw => ?_, hv.uncanceled,
    List.pairwise_cons.2 ⟨fun p hp => ?_, hv.older⟩, fun p hp => ?_⟩
  · have hrest := hv.resting hyes
    exact (Engine.reaches_of_report hrest.fit _).resting hrest hrest.ground hrest.idle
      hrest.watching
  · exact hv.sound hyes w (hr.evolves.problem w hw)
  · exact (Engine.reaches_of_report (hv.resting hyes).fit _).fit.problem (hv.exact hp hyes w hw)
  · exact hv.overlooked hyes ho w (hr.evolves.problem w hw)
  · -- what an old snapshot counts on is there now
    have hold := (hv.recalls p hp).restorable
    obtain ⟨-, rfl⟩ := Engine.snapshot_eq_ok.1 hsnap
    exact ⟨hold.vars, hold.clauses, hold.learnts, hold.units⟩
  · rcases List.mem_cons.1 hp with rfl | hp
    · exact hnew.evolves hr.evolves
    · exact (hv.recalls p hp).evolves hr.evolves

/-- What a load counts on, whatever levels are open. -/
structure Loadable (rules : Rules) (e : Engine) (saved : List (Snapshot × List Demand)) : Prop where
  fit : e.Fit fun _ => False
  decides : rules.decisionVars = true → ∀ v : Var, v.index < e.trail.varCount →
    e.decisions.decides v = some true
  older : saved.Pairwise fun p q => q.1.Older p.1
  recalls : ∀ p ∈ saved, Recalls rules.plain e p.1 p.2

/-- In a valid state every live snapshot can be loaded. -/
theorem Valid.loadable (hv : Valid rules s L) : Loadable rules s.engine L.saved :=
  ⟨hv.fit, hv.decides, hv.older, hv.recalls⟩

/-- Steps of a search keep this. -/
theorem Loadable.reaches {e e' : Engine} {R : World → Prop} {saved : List (Snapshot × List Demand)}
    (hl : Loadable rules e saved) (hr : e.Reaches R e') : Loadable rules e' saved where
  fit := hr.fit.anti fun _ => False.elim
  decides hd v hlt := by
    rw [hr.decides]
    exact hl.decides hd v (hr.varCount ▸ hlt)
  older := hl.older
  recalls p hp := (hl.recalls p hp).evolves hr.evolves

/-- The snapshots that stay when one is loaded are older. -/
theorem older_of_live {snapshot : Snapshot} {added : List Demand}
    {younger older : List (Snapshot × List Demand)}
    (hpairwise : L.saved.Pairwise fun p q => q.1.Older p.1)
    (hsaved : L.saved = younger ++ (snapshot, added) :: older) :
    ∀ p ∈ (snapshot, added) :: older, p.1.Older snapshot := by
  rw [hsaved, List.pairwise_append] at hpairwise
  intro p hp
  rcases List.mem_cons.1 hp with rfl | hp
  · exact .refl _
  · exact (List.pairwise_cons.1 hpairwise.2.1).1 p hp

/-- Loading a live snapshot leads to a valid state, with the demands of its time. -/
theorem valid_of_load {snapshot : Snapshot} {added : List Demand}
    {younger older : List (Snapshot × List Demand)} (hv : Loadable rules s.engine L.saved)
    (hsaved : L.saved = younger ++ (snapshot, added) :: older)
    (h : s.load snapshot = .ok s') :
    Valid rules s' ⟨added, (snapshot, added) :: older, False⟩ := by
  have hmem : ∀ p ∈ (snapshot, added) :: older, p ∈ L.saved := fun p hp =>
    hsaved ▸ List.mem_append_right _ hp
  have hrecalls := hv.recalls _ (hmem (snapshot, added) List.mem_cons_self)
  obtain ⟨hi, replayed, e, hroll, rfl⟩ := Solver.load_eq_ok.1 h
  obtain ⟨e₁, hb⟩ := Engine.rolledBack_of_rollback hv.fit hi hrecalls.restorable hroll
  have hpairwise := hv.older
  rw [hsaved, List.pairwise_append] at hpairwise
  have holder := older_of_live hv.older hsaved
  -- the load is reported at the end, which changes nothing
  have hreport : ∀ {R : World → Prop}, e.Fit R → e.Reaches R
      (e.report (.loaded snapshot (snapshot.ok && replayed))) := fun hf =>
    Engine.reaches_of_report hf _
  have hr := hreport hb.fit
  -- replaying succeeds only for a snapshot of a solver that was `ok`
  have hcases : (snapshot.ok && replayed) = true ↔ replayed = true := by
    rw [Bool.and_eq_true, and_iff_right_iff_imp]
    exact hb.ok
  refine ⟨hr.fit.anti fun _ => False.elim, hb.ground, fun hp v hlt => ?_, fun hok => ?_,
    fun hok w hw => ?_, fun hp hok w hw => ?_, fun hp hno w hw => ?_, fun _ => False.elim,
    fun _ => id, hpairwise.2.1, fun p hp => ?_⟩
  · have hlt' : v.index < snapshot.vars := hb.varCount ▸ hlt
    have hdec : e.decisions.decides v = s.engine.decisions.decides v :=
      (congrFun hb.decides v).trans (hb.cut.decides v hlt')
    exact hdec.trans (hv.decides hp v (Nat.lt_of_lt_of_le hlt' hrecalls.restorable.vars))
  · have hrest := hb.resting (hcases.1 hok)
    exact (hreport hrest.fit).resting hrest hrest.ground hrest.idle fun _ => hrest.watching trivial
  · have hyes := hcases.1 hok
    exact hrecalls.sound (hb.ok hyes) w ((hb.problem hyes w).1 (hr.evolves.problem w hw))
  · have hyes := hcases.1 hok
    have hw₁ := (hb.problem hyes w).2 (hrecalls.exact hp (hb.ok hyes) w hw)
    exact (hreport (hb.resting hyes).fit).fit.problem hw₁
  · cases hsnap : snapshot.ok with
    | false => exact hrecalls.refuted hp hsnap w hw
    | true =>
        have hreplayed : replayed = false := by
          have hno' : (snapshot.ok && replayed) = false := hno
          rwa [hsnap, Bool.true_and] at hno'
        exact hb.refuted hsnap hreplayed w (hrecalls.exact hp hsnap w hw)
  · exact (((hv.recalls p (hmem p hp)).cut hb.cut (holder p hp)).evolves hb.evolves).evolves
      hr.evolves

/-! ## Runs -/

/-- Every call leads from a valid state to a valid one. -/
theorem valid_of_call (hv : Valid rules s L) (h : Call rules s L s' L') : Valid rules s' L' := by
  cases h with
  | newVar negated decision hdecision h => exact valid_of_newVar hv hdecision h
  | add d hlength hplain h => exact valid_of_demand hv hlength hplain h
  | preprocess h => exact valid_of_preprocess hv h
  | solve budget assumptions handler h hcanceled => exact valid_of_solve hv hcanceled h
  | save h => exact valid_of_save hv h

/-- The ledger of every run is right. -/
theorem valid_of_run (h : Run rules s L) : Valid rules s L := by
  induction h with
  | new h => exact valid_of_new h
  | call _ h ih => exact valid_of_call ih h
  | load _ hsaved h ih => exact valid_of_load ih.loadable hsaved h

end CardSat
