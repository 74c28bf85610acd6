import CardSat.Proofs.Engine.Choosing
import CardSat.Proofs.Engine.Storing
import CardSat.Proofs.Engine.Thinning
import CardSat.Proofs.Engine.Turns

set_option autoImplicit false

/-! # Search

A search goes from one conflict to the next (`stretch`), learns from it (`learnFrom`), goes on to
the next restart (`interval`), and restarts until there is an answer (`intervals`). Between two
steps it is in a state of `Searching`; at a conflict it is `Broken`, which learning repairs. What an
answer is worth is said by `Answered`.

## How the proof goes

Each loop has one theorem, by induction on its rounds, and the theorem of an outer loop cites that
of the inner one: `paused_of_stretch`, `answered_of_interval`, `concluded_of_intervals`. What an
answer is worth is told twice. `Answered` tells it in the state in which the answer is given, with
the trail that shows it, and `Concluded` tells it after the search has gone back to the ground
level, in terms of the state in which it began. The step from one to the other is
`concluded_of_cancelUntil`.

The proposition `good` says that nothing was forgotten when the search began. The models that a
search finds are models of the problem only then. A core, and that there is no model, do not need
it.
-/

namespace CardSat

namespace Engine

variable {e e' e₀ : Engine} {R : World → Prop} {good : Prop} {as : Array Lit} {h : Handle}

/-! ## States and answers -/

/-- A constraint has failed. -/
structure Broken (R : World → Prop) (good : Prop) (as : Array Lit) (e e' : Engine) (h : Handle) :
    Prop where
  reaches : e.Reaches R e'
  assuming : Assuming e.trail e'.trail as
  conflict : e'.network.Conflict h
  below : good → e'.network.WatchingBelow
  idle : e'.Idle

/-- What an answer means in the state in which it is found. -/
def Answered (R : World → Prop) (good : Prop) (as : Array Lit) (e e' : Engine) : Answer → Prop
  | .sat m => m = e'.trail.model ∧ Searching R good as e e' ∧ e'.Idle ∧ as.size ≤ e'.trail.level ∧
      ∀ v, e'.trail.Free v → e'.decisions.decides v ≠ some true
  | .unsat core => IsCore R (as.toList ++ e.trail.decisions) core ∧ e.Reaches R e' ∧
      (core ≠ [] → Searching R good as e e' ∧ e'.Idle)
  | .interrupted _ => Searching R good as e e' ∧ e'.Idle
  | .canceled => ∃ h, Broken R good as e e' h

/-- What the end of a stretch means. -/
def Paused (R : World → Prop) (good : Prop) (as : Array Lit) (e e' : Engine) : Pause → Prop
  | .conflict h => Broken R good as e e' h
  | .restart => Searching R good as e e'
  | .answer a => Answered R good as e e' a

/-! ## Bookkeeping -/

/-- Counters, limits, reports and activities matter to no invariant. -/
theorem reaches_of_bookkeeping (hf : e.Fit R) {db : Database} {d : Decisions} {g : LearntLimit}
    {solves starts decided conflicts : Nat} {journal : Array Event}
    (hdb : e.database.SameLists db) (hdec : d.decides = e.decisions.decides)
    (hq : d.Ready e.trail.Free) :
    e.Reaches R { e with
      database := db, decisions := d, learntLimit := g, solves := solves, starts := starts
      decided := decided, conflicts := conflicts, journal := journal } :=
  .of_same rfl rfl hdb (.refl _) (fun _ hl hlev => ⟨hl, hlev⟩) hdec
    ⟨hf.sane, hf.sound, fun w hw => hdb.units ▸ hf.units w hw, hf.listed.same hdb (.refl _), hq,
      hf.clean, hf.marked⟩

/-- An event changes nothing that matters. -/
theorem reaches_of_report (hf : e.Fit R) (event : Event) : e.Reaches R (e.report event) :=
  reaches_of_bookkeeping hf (.refl _) rfl hf.ready

/-- Nor does the limit of learnt clauses. -/
theorem reaches_of_countTowardsLimit (hf : e.Fit R) : e.Reaches R e.countTowardsLimit ∧
    e.countTowardsLimit.network = e.network := by
  obtain ⟨_, _, hcount⟩ := exists_countTowardsLimit e
  rw [hcount]
  exact ⟨reaches_of_bookkeeping hf (.refl _) rfl hf.ready, rfl⟩

/-- What follows learning. -/
theorem reaches_of_decay (hf : e.Fit R) : e.Reaches R e.decay.countTowardsLimit ∧
    e.decay.countTowardsLimit.network = e.network := by
  have hd : e.Reaches R e.decay :=
    reaches_of_bookkeeping hf ⟨rfl, rfl, rfl, rfl⟩ rfl ⟨hf.ready.listed, hf.ready.waiting,
      hf.ready.rated, hf.ready.known.of_sub rfl (fun _ => id) rfl⟩
  obtain ⟨hr, hn⟩ := reaches_of_countTowardsLimit hd.fit
  exact ⟨hd.trans hr, hn⟩

/-! ## From one conflict to the next -/

/-- Propagation goes on with the search, or breaks it at a conflict. -/
theorem searching_of_propagate {failed : Option Handle} (hs : Searching R good as e₀ e)
    (h : e.propagate = .ok (failed, e')) :
    e'.Idle ∧ (failed = none → Searching R good as e₀ e') ∧
      ∀ a, failed = some a → Broken R good as e₀ e' a := by
  have hp := propagated_of_propagate hs.reaches.fit hs.watching h
  have hreach := hs.reaches.trans hp.reaches
  have has := hs.assuming.extends_ hp.longer hp.forced
  refine ⟨hp.idle, fun hnone => ⟨hreach, has, hp.watching hnone⟩, fun a ha => ?_⟩
  obtain ⟨hconf, hbelow⟩ := hp.conflict a ha
  exact ⟨hreach, has, hconf, hbelow, hp.idle⟩

/-- Going back goes on with the search. -/
theorem searching_of_cancelUntil {b : Nat} (hs : Searching R good as e₀ e)
    (h : e.cancelUntil b = .ok e') : Searching R good as e₀ e' where
  reaches := hs.reaches.trans (reaches_of_cancelUntil hs.reaches.fit h)
  assuming := by
    rw [trail_of_cancelUntil h]
    exact hs.assuming.rewind hs.reaches.fit.sane.trail b
  watching hg := watching_of_cancelUntil hs.reaches.fit (hs.watching hg) h

/-- So does simplifying. -/
theorem searching_of_simplify (hs : Searching R good as e₀ e) (h : e.simplify = .ok e') :
    Searching R good as e₀ e' ∧ (e.Idle → e'.Idle) := by
  have hv := hs.reaches.fit.sane.trail
  obtain ⟨hr, hc, hsame, hw⟩ := reaches_of_simplify hs.reaches.fit hs.watching h
  refine ⟨⟨hs.reaches.trans hr, ?_, hw⟩, fun hidle => idle_of_cleared hidle hc⟩
  rcases Nat.eq_zero_or_pos e.trail.level with h0 | hpos
  · exact .of_ground (hc.valid hv) (hc.level_eq.trans h0) as
  · rw [hsame hpos]
    exact hs.assuming

/-- So does reducing. -/
theorem searching_of_reduce (hs : Searching R good as e₀ e) (h : e.reduce = .ok e') :
    Searching R good as e₀ e' ∧ (e.Idle → e'.Idle) := by
  obtain ⟨hr, htrail, hw⟩ := reaches_of_reduce hs.reaches.fit hs.watching h
  exact ⟨⟨hs.reaches.trans hr, htrail ▸ hs.assuming, hw⟩, fun hidle => by rwa [Idle, htrail]⟩

/-- From one conflict to the next. -/
theorem paused_of_stretch {task : Task} {limit : Nat} : ∀ {rounds : Nat} {e : Engine} {p : Pause},
    Searching R good task.assumptions e₀ e → stretch task limit rounds e = .ok (p, e') →
    Paused R good task.assumptions e₀ e' p := by
  intro rounds
  induction rounds with
  | zero => exact fun _ h => absurd h stretch_zero_ne_ok
  | succ rounds ih =>
      intro e p hs h
      have hturn := turn_of_stretch h
      -- where no conflict is found, the search has come to a choice
      have hchosen : ∀ {e₁ e₂ e₃ e₄ : Engine} {c : Choosing}, e.propagate = .ok (none, e₁) →
          e₁.simplify = .ok e₂ → e₂.reduce = .ok e₃ → e₃.choose task.assumptions = .ok (c, e₄) →
          Chosen R good task.assumptions e₀ e₄ c := fun hprop hsimp hred hchoose => by
        obtain ⟨hidle₁, hnone, -⟩ := searching_of_propagate hs hprop
        obtain ⟨hs₂, hidle₂⟩ := searching_of_simplify (hnone rfl) hsimp
        obtain ⟨hs₃, hidle₃⟩ := searching_of_reduce hs₂ hred
        exact chosen_of_choose hs₃ (hidle₃ (hidle₂ hidle₁)) hchoose
      cases hturn with
      | conflict hprop =>
          have hb := (searching_of_propagate hs hprop).2.2 _ rfl
          exact ⟨hb.reaches.trans (reaches_of_bookkeeping hb.reaches.fit (.refl _) rfl
            hb.reaches.fit.ready), hb.assuming, hb.conflict, hb.below, hb.idle⟩
      | interrupted hprop hcancel =>
          obtain ⟨hidle₁, hnone, -⟩ := searching_of_propagate hs hprop
          exact ⟨searching_of_cancelUntil (hnone rfl) hcancel,
            idle_of_cancelUntil (hnone rfl).reaches.fit.sane.trail hidle₁ hcancel⟩
      | restart hprop _ hcancel =>
          exact searching_of_cancelUntil ((searching_of_propagate hs hprop).2.1 rfl) hcancel
      | failed hprop hsimp hred hchoose =>
          obtain ⟨hs₄, hidle₄, -, hcore⟩ := hchosen hprop hsimp hred hchoose
          exact ⟨hcore, hs₄.reaches, fun _ => ⟨hs₄, hidle₄⟩⟩
      | complete hprop hsimp hred hchoose =>
          obtain ⟨hs₄, hidle₄, hlevel, hall⟩ := hchosen hprop hsimp hred hchoose
          exact ⟨rfl, hs₄, hidle₄, hlevel, hall⟩
      | decide hprop hsimp hred hchoose hdecide hrest =>
          exact ih (searching_of_decideLit (hchosen hprop hsimp hred hchoose) hdecide) hrest

/-! ## Learning -/

/-- A clause with one literal of its conflict level forces it below that level. -/
theorem forcing_of_asserting {t : Trail} {level : Nat} {lits : List Lit} {l : Lit}
    (ha : Asserting t level lits) (hv : t.Valid) (hl : lits.head? = some l) :
    Forcing (t.rewind level).2 l lits := by
  have hlevel : (t.rewind level).2.level = level := by
    have := ha.below
    rw [Trail.level_rewind]
    omega
  have htail : ∀ a ∈ lits.tail, a.neg ∈ (t.rewind level).2 := fun a hat => by
    obtain ⟨hm, -, hle⟩ := ha.tail a hat
    exact (Trail.mem_rewind hv).2 ⟨hm, hle⟩
  -- the second literal keeps the level that the search returns to
  obtain ⟨a, ha₁, hlev⟩ := ha.second
  have hat : a ∈ lits.tail := by
    rw [← List.drop_one]
    exact List.mem_iff_getElem?.2 ⟨0, by rw [List.getElem?_drop]; exact ha₁⟩
  obtain ⟨m, hm, hmt, -⟩ := ha.first
  obtain rfl := Option.some.inj (hm.symm.trans hl)
  refine ⟨?_, ha.two_le, ha.distinct, hl, ?_, htail, a, ha₁, ?_⟩
  · rw [hlevel, ← hlev]
    exact (ha.tail a hat).2.1
  · rw [Trail.varCount_rewind]
    exact hv.lt_varCount (l := m.neg) hmt
  · rw [Trail.levelOf_rewind, hlev, hlevel]

/-- After going back to its level a learnt clause forces its first literal. -/
theorem forcing_of_cancelUntil {e₁ e₂ : Engine} {level : Nat} {lits : Array Lit} {l : Lit}
    (ha : Asserting e.trail level lits.toList) (hv : e.trail.Valid) (htrail : e₁.trail = e.trail)
    (hcancel : e₁.cancelUntil level = .ok e₂) (hfirst : lits[0]? = some l) :
    Forcing e₂.trail l lits.toList := by
  rw [trail_of_cancelUntil hcancel, htrail]
  refine forcing_of_asserting ha hv ?_
  rw [List.head?_eq_getElem?, Array.getElem?_toList, hfirst]

/-- Going back below the conflict restores what the new activities leave alone. -/
theorem Broken.watching {e₁ e₂ : Engine} {k : Nat} (hb : Broken R good as e₀ e h)
    (hrel : e.store.Relabels e₁.store)
    (hn : e₁.network = { e.network with store := e₁.store }) (hk : k < e.trail.level)
    (hcancel : e₁.cancelUntil k = .ok e₂) (hg : good) : e₂.Watching := by
  have hw := ((hb.below hg).rewind hb.reaches.fit.sane.trail hk).relabels hrel
  rw [Watching, network_of_cancelUntil hcancel, trail, hn]
  exact hw

/-- Learning from a conflict goes on with the search, or shows that there is no world. -/
theorem searching_of_learnFrom {b : Bool} (hb : Broken R good as e₀ e h)
    (hl : e.learnFrom h = .ok (b, e')) :
    (b = false → e₀.Reaches R e' ∧ ∀ w, ¬ R w) ∧ (b = true → Searching R good as e₀ e') := by
  have hf := hb.reaches.fit
  have hv : e.trail.Valid := hf.sane.trail
  cases learnsFrom_of_learnFrom hl with
  | unsatisfiable hanalyze =>
      obtain ⟨hr₁, hright, -⟩ := reaches_of_analyze hf hb.conflict hanalyze
      refine ⟨fun _ => ⟨hb.reaches.trans hr₁, fun w => ?_⟩, by simp⟩
      obtain ⟨c, hc, hfalse, -⟩ := hb.conflict
      exact hf.sound.absurd_of_falsified hf.sane hright hc hfalse w
  | @unit e₁ e₂ e₃ l hanalyze hcancel hlearn =>
      obtain ⟨hr₁, ⟨hpos, hln, hlev, hR⟩, hrel, hn₁⟩ := reaches_of_analyze hf hb.conflict hanalyze
      have hr₂ := reaches_of_cancelUntil hr₁.fit hcancel
      have hlevel : e₂.trail.level = 0 := by rw [level_of_cancelUntil hcancel, Nat.zero_min]
      rw [learn_singleton] at hlearn
      obtain ⟨hr₃, hasg, hw₃, -⟩ := reaches_of_fact hr₂.fit hR hlevel hlearn
      obtain ⟨hr₄, hn₄⟩ := reaches_of_decay hr₃.fit
      refine ⟨by simp, fun _ => ⟨((hb.reaches.trans hr₁).trans (hr₂.trans hr₃)).trans hr₄, ?_,
        fun hg => ?_⟩⟩
      · rw [show e₃.decay.countTowardsLimit.trail = e₃.trail from congrArg Network.trail hn₄]
        exact .of_ground hr₃.fit.sane.trail (hasg.level_eq.trans hlevel) as
      · rw [Watching, hn₄]
        exact hw₃ (hb.watching hrel hn₁ hpos hcancel hg)
  -- the clause forces its first literal on the level to which the search goes back
  | @clause e₁ e₂ e₃ level lits l hanalyze hcancel hfirst hlearn =>
      obtain ⟨hr₁, ⟨hassert, hR⟩, hrel, hn₁⟩ := reaches_of_analyze hf hb.conflict hanalyze
      have htrail₁ : e₁.trail = e.trail := by rw [trail, hn₁]
      have hr₂ := reaches_of_cancelUntil hr₁.fit hcancel
      have hforce := forcing_of_cancelUntil hassert hv htrail₁ hcancel hfirst
      obtain ⟨hr₃, ⟨a, hasg⟩, hw₃, -⟩ := reaches_of_learn_clause hr₂.fit hforce hR hlearn
      obtain ⟨hr₄, hn₄⟩ := reaches_of_decay hr₃.fit
      refine ⟨by simp, fun _ => ⟨((hb.reaches.trans hr₁).trans (hr₂.trans hr₃)).trans hr₄, ?_,
        fun hg => ?_⟩⟩
      · rw [show e₃.decay.countTowardsLimit.trail = e₃.trail from congrArg Network.trail hn₄]
        have has : Assuming e₀.trail e₂.trail as := by
          rw [trail_of_cancelUntil hcancel, htrail₁]
          exact hb.assuming.rewind hv level
        refine has.extends_ (hasg.extends hr₂.fit.sane.trail) fun m hm => ?_
        rcases hasg.mem_iff.1 hm with hm | rfl
        · exact Or.inl hm
        · exact Or.inr ⟨a, hasg.reasonOf_self⟩
      · rw [Watching, hn₄]
        exact hw₃ _ (hb.watching hrel hn₁ hassert.below hcancel hg)

/-! ## From one restart to the next -/

section

variable {σ : Type} {st st' : σ} {handler : Handler (StateM σ)} {task : Task}

/-- From one restart to the next. -/
theorem answered_of_interval {limit : Nat} : ∀ {rounds : Nat} {e : Engine} {st : σ}
    {o : Option Answer}, Searching R good task.assumptions e₀ e →
    Returns (e.interval task handler limit rounds) st (o, e') st' →
    (o = none → Searching R good task.assumptions e₀ e') ∧
      ∀ a, o = some a → Answered R good task.assumptions e₀ e' a := by
  intro rounds
  induction rounds with
  | zero => exact fun _ h => absurd h returns_throw
  | succ rounds ih =>
      intro e st o hs h
      cases lap_of_interval h with
      | restart hstretch => exact ⟨fun _ => paused_of_stretch hs hstretch, by simp⟩
      | answer hstretch =>
          refine ⟨by simp, fun a' ha => ?_⟩
          obtain rfl := Option.some.inj ha
          exact paused_of_stretch hs hstretch
      | canceled hstretch =>
          refine ⟨by simp, fun a' ha => ?_⟩
          obtain rfl := Option.some.inj ha
          exact ⟨_, paused_of_stretch hs hstretch⟩
      -- the conflict was one of the ground level
      | refuted hstretch hlearn =>
          obtain ⟨hreach, hno⟩ :=
            (searching_of_learnFrom (paused_of_stretch hs hstretch) hlearn).1 rfl
          refine ⟨by simp, fun a' ha => ?_⟩
          obtain rfl := Option.some.inj ha
          exact ⟨⟨by simp, fun w hw => absurd hw (hno w)⟩, hreach, fun hne => absurd rfl hne⟩
      | learn hstretch hlearn hrest =>
          exact ih ((searching_of_learnFrom (paused_of_stretch hs hstretch) hlearn).2 rfl) hrest

/-! ## A whole search -/

/-- A constraint is violated. Where nothing waits, no propagation reveals it. -/
def Overlooks (e : Engine) : Prop :=
  ∃ h c, e.store.get? h = some c ∧ c.Falsified e.trail

/-- What an answer means in the state `e'` in which the search that began in `e` leaves the
engine. Levels that are open in `e` are taken for those of the first assumptions. -/
def Concluded (R : World → Prop) (good : Prop) (as : List Lit) (e e' : Engine) : Answer → Prop
  | .sat m => (good → e'.Watching) ∧
      (∀ i l, as[i]? = some l → e.trail.level ≤ i → m.makesTrue l = true) ∧
      ((∀ v : Var, v.index < e.trail.varCount → e.decisions.decides v = some true) →
        (∀ v : Var, v.index < e.trail.varCount → ∃ b, m.get? v.index = some b) ∧
        (good → e.Placed → ∀ w, m.Agrees w → e.Problem w))
  | .unsat core => IsCore R (as ++ e.trail.decisions) core ∧ (core ≠ [] → good → e'.Watching)
  | .interrupted _ => good → e'.Watching
  | .canceled => good → e'.Overlooks ∨ e'.Watching

/-- A complete assignment is a model of the problem. -/
theorem problem_of_complete (hs : Searching R good as e₀ e) (hidle : e.Idle) (hg : good)
    (hp : e₀.Placed) (htotal : ∀ v : Var, v.index < e.trail.varCount → ∃ l ∈ e.trail, l.var = v)
    {w : World} (hw : e.trail.model.Agrees w) : e₀.Problem w := by
  have hf := hs.reaches.fit
  have htrue : ∀ l ∈ e.trail, l.holds w = true := fun l hl =>
    Trail.holds_of_agrees hf.sane.trail hw hl
  refine hs.reaches.evolves.problem w ⟨fun a _ c hc => ?_, fun l hl => ?_, fun _ l hl _ => htrue l hl⟩
  · exact Network.holds_of_complete hf.sane (hs.watching hg) hidle htotal htrue hc
  · exact htrue l (hs.reaches.placed hp l hl).1

/-- What an answer is worth when everything has been taken back. -/
theorem concluded_of_cancelUntil {a : Answer} (ha : Answered R good as e₀ e a)
    (h : e.cancelUntil 0 = .ok e') :
    e₀.Reaches R e' ∧ e'.trail.level = 0 ∧ (a ≠ .unsat [] → e'.Idle) ∧
      Concluded R good as.toList e₀ e' a := by
  have hlevel : e'.trail.level = 0 := by rw [level_of_cancelUntil h, Nat.zero_min]
  cases a with
  | sat m =>
      obtain ⟨rfl, hs, hidle, hsize, hfree⟩ := ha
      have hs' := searching_of_cancelUntil hs h
      have hv := hs.reaches.fit.sane.trail
      refine ⟨hs'.reaches, hlevel, fun _ => idle_of_cancelUntil hv hidle h, hs'.watching,
        fun i l hi hle => ?_, fun hall => ?_⟩
      · rw [Array.getElem?_toList] at hi
        have hlt := (Array.getElem?_eq_some_iff.1 hi).1
        exact Trail.makesTrue_model hv (hs.assuming.placed i l hi hle (by omega)).1
      · have hcount : e.trail.varCount = e₀.trail.varCount := hs.reaches.varCount
        -- no variable is left to be decided, so each has a value
        have htotal : ∀ v : Var, v.index < e.trail.varCount → ∃ l ∈ e.trail, l.var = v := by
          intro v hlt
          by_contra hno
          refine hfree v ((Trail.free_iff hv).2 ⟨hlt, fun l hl hlv => hno ⟨l, hl, hlv⟩⟩) ?_
          rw [hs.reaches.decides]
          exact hall v (hcount ▸ hlt)
        refine ⟨fun v hlt => ?_, fun hg hp w hw => problem_of_complete hs hidle hg hp htotal hw⟩
        obtain ⟨l, hl, rfl⟩ := htotal v (hcount.symm ▸ hlt)
        exact ⟨_, Trail.get?_model_of_mem hv hl⟩
  | unsat core =>
      obtain ⟨hcore, hreach, hs⟩ := ha
      refine ⟨hreach.trans (reaches_of_cancelUntil hreach.fit h), hlevel, fun hne => ?_, hcore,
        fun hne hg => (searching_of_cancelUntil (hs hne).1 h).watching hg⟩
      exact idle_of_cancelUntil hreach.fit.sane.trail
        (hs fun hnil => hne (congrArg Answer.unsat hnil)).2 h
  | interrupted x =>
      have hs' := searching_of_cancelUntil ha.1 h
      exact ⟨hs'.reaches, hlevel,
        fun _ => idle_of_cancelUntil ha.1.reaches.fit.sane.trail ha.2 h, hs'.watching⟩
  | canceled =>
      obtain ⟨a, hb⟩ := ha
      have hf := hb.reaches.fit
      refine ⟨hb.reaches.trans (reaches_of_cancelUntil hf h), hlevel,
        fun _ => idle_of_cancelUntil hf.sane.trail hb.idle h, fun hg => ?_⟩
      rcases Nat.eq_zero_or_pos e.trail.level with h0 | hpos
      · -- nothing is taken back, and the constraint stays violated
        obtain ⟨c, hc, hfalse, -⟩ := hb.conflict
        have hn := network_of_cancelUntil h
        have htrail : e'.trail = e.trail := by
          rw [trail, hn]
          exact Trail.rewind_of_le hf.sane.trail (Nat.le_of_eq h0)
        exact Or.inl ⟨a, c, by rw [store, hn]; exact hc, htrail ▸ hfalse⟩
      · exact Or.inr (watching_of_cancelUntil_below hf (hb.below hg) hpos h)

/-- Any number of restarts. -/
theorem concluded_of_intervals : ∀ {rounds restarts : Nat} {e : Engine} {st : σ} {a : Answer},
    Searching R good task.assumptions e₀ e →
    Returns (e.intervals task handler rounds restarts) st (a, e') st' →
    e₀.Reaches R e' ∧ e'.trail.level = 0 ∧ (a ≠ .unsat [] → e'.Idle) ∧
      Concluded R good task.assumptions.toList e₀ e' a := by
  intro rounds
  induction rounds with
  | zero =>
      intro restarts e st a hs h
      exact absurd h returns_throw
  | succ rounds ih =>
      intro restarts e st a hs h
      simp only [intervals, returns_bind, returns_checked] at h
      obtain ⟨length, _, ⟨-, rfl⟩, ⟨o, e₁⟩, st₁, hinterval, h⟩ := h
      have hf := hs.reaches.fit
      -- a restart is counted before the interval begins
      have hs₁ : Searching R good task.assumptions e₀ { e with starts := e.starts + 1 } :=
        ⟨hs.reaches.trans (reaches_of_bookkeeping hf (.refl _) rfl hf.ready), hs.assuming,
          hs.watching⟩
      obtain ⟨hnone, hsome⟩ := answered_of_interval hs₁ hinterval
      cases o with
      | none => exact ih (hnone rfl) h
      | some a' =>
          simp only [returns_bind, returns_checked, returns_pure] at h
          obtain ⟨e₂, _, ⟨hcancel, -⟩, heq, -⟩ := h
          obtain ⟨rfl, rfl⟩ := Prod.mk.inj heq
          exact concluded_of_cancelUntil (hsome a' rfl) hcancel

/-- The specification of a search. -/
theorem concluded_of_search {restart : RestartStrategy} {budget : Budget} {as : List Lit}
    {a : Answer} (hf : e.Fit R) (hw : good → e.Watching)
    (h : Returns (e.search restart budget handler as) st (a, e') st') :
    e.Reaches R e' ∧ e'.trail.level = 0 ∧ (a ≠ .unsat [] → e'.Idle) ∧
      Concluded R good as e e' a := by
  simp only [search, returns_bind, returns_pure] at h
  obtain ⟨⟨a', e₁⟩, st₁, hint, heq, -⟩ := h
  obtain ⟨rfl, rfl⟩ := Prod.mk.inj heq
  have hstart : Searching R good as.toArray e { e.report .searchStarted with
      solves := e.solves + 1
      learntLimit := e.learntLimit.reset e.database.counts.given } :=
    ⟨reaches_of_bookkeeping hf (.refl _) rfl hf.ready, .start e.trail as.toArray, hw⟩
  obtain ⟨hr, hlevel, hidle, hc⟩ := concluded_of_intervals hstart hint
  refine ⟨hr.trans (reaches_of_bookkeeping hr.fit (.refl _) rfl hr.fit.ready), hlevel, hidle, ?_⟩
  cases a' with
  | sat m => exact hc
  | unsat core => exact hc
  | interrupted x => exact hc
  | canceled => exact hc

end

end Engine

end CardSat
