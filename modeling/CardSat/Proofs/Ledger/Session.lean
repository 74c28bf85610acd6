import CardSat.Proofs.Engine.Steering
import CardSat.Proofs.Ledger.Since
import CardSat.Proofs.Propagation.Fixpoint
import CardSat.Solver.Stepwise

set_option autoImplicit false

/-! # Sessions

In a `Session` the calls of a run alternate with calls that direct the search (`Steer`). A caller
directs a solver that is `ok`, and learns the pending clause only where it forces its first literal
(`Solver.forces`); the number of the level alone does not tell. The ordinary calls are made at the
ground level, and a snapshot is loaded at any time.

Of a session it is known to which state of a run the search that it directs goes back: the solver
was `Valid` there, and has been `Directed` since (`directed_of_session`). What is pending follows
from the problem (`Solver.Owed`).

## Why the number of the level does not tell

A caller may go back below the level of the lesson and open other levels. The number is the same
again, but the literals of the clause have other values, or none: the clause does not force anything
there, and learning it would put a literal on the trail for no reason. `Solver.forces` is the test
that a caller can make instead: the first literal of the clause has no value, the others are false,
and the second is on the current level.
-/

namespace CardSat

namespace Solver

/-- Whether the pending clause forces its first literal at the present level: this literal has no
value, the others are false, and the second one became so at this level. -/
def forces (s : Solver) : Bool :=
  match s.pending.clause.map Array.toList with
  | some (l :: rest) =>
    s.engine.trail.truth l == .unset && rest.all (fun m => s.engine.trail.truth m == .no) &&
      rest.head?.all fun m => s.engine.trail.levelOf m.var == s.engine.trail.level
  | _ => false

end Solver

/-- The calls that direct the search, and their answers. -/
inductive Steer : Solver → Bool → Solver → Prop
  | start {s s' : Solver} {b : Bool} (h : s.start = .ok (b, s')) : Steer s b s'
  | decide {s s' : Solver} {b : Bool} (v : Var) (phase : Bool)
      (h : s.decide v phase = .ok (b, s')) : Steer s b s'
  | undo {s s' : Solver} (v : Var) (h : s.undo v = .ok s') : Steer s true s'
  | read {s : Solver} (known : Var → Bool) : Steer s true (s.newlyImplied known).2
  | learn {s s' : Solver} {b : Bool} (hforces : s.forces = true)
      (h : s.assertLearnt = .ok (b, s')) : Steer s b s'

/-- The solvers that can be reached by calls of both kinds, with their ledgers. -/
inductive Session (rules : Rules) : Solver → Ledger → Prop
  | new {settings : Settings} {s : Solver} (h : Solver.new settings = .ok s) : Session rules s {}
  | call {s s' : Solver} {L L' : Ledger} (hs : Session rules s L)
      (hground : s.engine.trail.level = 0) (h : Call rules s L s' L') : Session rules s' L'
  | load {s s' : Solver} {L : Ledger} {snapshot : Snapshot} {added : List Demand}
      {younger older : List (Snapshot × List Demand)} (hs : Session rules s L)
      (hsaved : L.saved = younger ++ (snapshot, added) :: older)
      (h : s.load snapshot = .ok s') :
      Session rules s' ⟨added, (snapshot, added) :: older, False⟩
  | steer {s s' : Solver} {L : Ledger} {b : Bool} (hs : Session rules s L) (hok : s.ok = true)
      (h : Steer s b s') : Session rules s' L

variable {rules : Rules} {s s' s₀ : Solver} {L L' : Ledger} {R : World → Prop} {good : Prop}
  {b : Bool}

/-! ## The calls -/

namespace Solver

/-- Where nothing waits, there is nothing to propagate at the start. -/
theorem start_of_idle (hidle : s.engine.Idle) : s.start = .ok (true, s.setUnread true) := by
  rw [start, Engine.propagate_of_idle hidle]
  rfl

/-- Going back is a rewinding of the engine, and nothing is left to be read. -/
theorem undo_eq_ok {v : Var} (h : s.undo v = .ok s') :
    ∃ k e, s.engine.cancelUntil k = .ok e ∧ s' = { s.setUnread false with engine := e } := by
  simp only [undo, bind_eq_ok] at h
  obtain ⟨level, -, h⟩ := h
  split at h
  next => exact absurd h throw_ne_ok.1
  next => exact absurd h throw_ne_ok.1
  next k =>
      simp only [bind_eq_ok, pure_eq_ok] at h
      obtain ⟨e, hcancel, rfl⟩ := h
      exact ⟨k, e, hcancel, rfl⟩

/-! ## What is pending -/

/-- What is known of a clause that is to be learnt. It follows from the problem, and it belongs to
the ground level if it has one literal only. -/
structure Owes (s : Solver) (lits : Array Lit) : Prop where
  distinct : (lits.toList.map Lit.var).Nodup
  known : ∀ l ∈ lits.toList, l.var.index < s.engine.trail.varCount
  implied : ∀ w, s.engine.Problem w → w.clauseHolds lits.toList = true
  level : ∃ k, s.pending.level = some k ∧ (k = 0 ↔ lits.size = 1)

/-- What is pending may be learnt. -/
def Owed (s : Solver) : Prop := ∀ lits, s.pending.clause = some lits → s.Owes lits

/-- What is pending stays owed while the engine evolves. -/
theorem Owed.evolves (h : s.Owed) (he : s.engine.Evolves s'.engine)
    (hclause : s'.pending.clause = s.pending.clause) (hlevel : s'.pending.level = s.pending.level) :
    s'.Owed := by
  intro lits hlits
  have ho := h lits (hclause ▸ hlits)
  exact ⟨ho.distinct, fun l hl => Nat.lt_of_lt_of_le (ho.known l hl) he.varCount,
    fun w hw => ho.implied w (he.problem w hw), hlevel ▸ ho.level⟩

/-- Where nothing is pending, nothing is owed. -/
theorem owed_of_none (h : s.pending.clause = none) : s.Owed := by
  intro lits hlits
  rw [h] at hlits
  cases hlits

/-- Where the clause that a conflict has taught forces its first literal, it does so as a learnt
clause should. -/
theorem forces_eq_true {lits : Array Lit} (h : s.forces = true)
    (hclause : s.pending.clause = some lits) :
    ∃ l rest, lits.toList = l :: rest ∧ s.engine.trail.truth l = .unset ∧
      (∀ m ∈ rest, s.engine.trail.truth m = .no) ∧
      ∀ m, rest.head? = some m → s.engine.trail.levelOf m.var = s.engine.trail.level := by
  simp only [forces, hclause, Option.map_some] at h
  split at h
  next l rest heq =>
      simp only [Bool.and_eq_true, beq_iff_eq, List.all_eq_true] at h
      obtain ⟨⟨hl, hrest⟩, hsecond⟩ := h
      refine ⟨l, rest, Option.some.inj heq, hl, hrest, fun m hm => ?_⟩
      rw [hm] at hsecond
      simpa using hsecond
  next => cases h

/-- A pending clause that forces its first literal may be learnt. -/
theorem forcing_of_forces {lits : Array Lit} (h : s.forces = true) (ho : s.Owes lits)
    (hclause : s.pending.clause = some lits) (hlevel : s.atAssertionLevel = true)
    (hv : s.engine.trail.Valid) :
    ∃ l, lits[0]? = some l ∧ s.engine.trail.truth l = .unset ∧
      (lits = #[l] ∧ s.engine.trail.level = 0 ∨
        lits.size ≠ 1 ∧ Engine.Forcing s.engine.trail l lits.toList) := by
  obtain ⟨l, rest, hlits, hl, hrest, hsecond⟩ := forces_eq_true h hclause
  have hfirst : lits[0]? = some l := by
    rw [← Array.getElem?_toList, hlits]
    rfl
  have hsize : lits.size = rest.length + 1 := by
    rw [← Array.length_toList, hlits, List.length_cons]
  -- only a clause of one literal is to be learnt at the ground level
  obtain ⟨k, hk, hiff⟩ := ho.level
  have hk' : k = s.engine.trail.level := by
    rw [atAssertionLevel, hk, beq_iff_eq] at hlevel
    exact Option.some.inj hlevel
  subst hk'
  refine ⟨l, hfirst, hl, ?_⟩
  cases rest with
  | nil => exact Or.inl ⟨Array.toList_inj.1 hlits, hiff.2 hsize⟩
  | cons m rest =>
      have hne : lits.size ≠ 1 := by
        rw [hsize, List.length_cons]
        omega
      refine Or.inr ⟨hne, Nat.pos_of_ne_zero fun h0 => hne (hiff.1 h0), ?_, ho.distinct, ?_, ?_,
        fun a ha => ?_, m, ?_, hsecond m rfl⟩
      · rw [hlits]
        simp
      · rw [hlits]
        rfl
      · exact ho.known l (hlits ▸ List.mem_cons_self)
      · rw [hlits, List.tail_cons] at ha
        exact (hv.truth_no a).1 (hrest a ha)
      · rw [hlits]
        rfl

/-- The solver after the pending clause was learnt and before this is propagated. -/
def learnt (s : Solver) (e : Engine) : Solver :=
  { s with
    engine := e.decay.countTowardsLimit
    pending := { s.pending with clause := none, unread := true } }

/-- Learning the pending clause part by part. -/
theorem assertLearnt_eq_ok : s.assertLearnt = .ok (b, s') ↔
    s.atAssertionLevel = true ∧ ∃ lits l e, s.pending.clause = some lits ∧ lits[0]? = some l ∧
      s.engine.learn l lits = .ok e ∧ (s.learnt e).propagateStep = .ok (b, s') := by
  cases hclause : s.pending.clause with
  | none => simp [assertLearnt, hclause, bind_eq_ok, throw_ne_ok]
  | some lits =>
      simp only [assertLearnt, hclause, bind_eq_ok, require_eq_ok, fetch_eq_ok]
      constructor
      · rintro ⟨-, hlevel, l, hfirst, e, hlearn, h⟩
        exact ⟨hlevel, lits, l, e, rfl, hfirst, hlearn, h⟩
      · rintro ⟨hlevel, lits', l, e, heq, hfirst, hlearn, h⟩
        obtain rfl := Option.some.inj heq
        exact ⟨(), hlevel, l, hfirst, e, hlearn, h⟩

/-- What is asserted is a fact, or a clause that forces its first literal. -/
theorem exists_learnt (hforces : s.forces = true) (ho : s.Owed) (hv : s.engine.trail.Valid)
    (h : s.assertLearnt = .ok (b, s')) :
    ∃ lits l e, s.Owes lits ∧ s.engine.learn l lits = .ok e ∧
      (lits = #[l] ∧ s.engine.trail.level = 0 ∨ Engine.Forcing s.engine.trail l lits.toList) ∧
      (s.learnt e).propagateStep = .ok (b, s') := by
  obtain ⟨hlevel, lits, l, e, hclause, hfirst, hlearn, hprop⟩ := assertLearnt_eq_ok.1 h
  have hl := ho lits hclause
  obtain ⟨l', hfirst', -, hcases⟩ := forcing_of_forces hforces hl hclause hlevel hv
  obtain rfl := Option.some.inj (hfirst'.symm.trans hfirst)
  exact ⟨lits, l', e, hl, hlearn, hcases.imp_right And.right, hprop⟩

/-- Learning keeps what is known of a directed search. -/
theorem steered_of_learnt {e₀ e : Engine} {lits : Array Lit} {l : Lit}
    (hs : e₀.Steered e₀.Problem good s.engine) (ho : s.Owes lits)
    (hcases : lits = #[l] ∧ s.engine.trail.level = 0 ∨ Engine.Forcing s.engine.trail l lits.toList)
    (h : s.engine.learn l lits = .ok e) :
    e₀.Steered e₀.Problem good (s.learnt e).engine := by
  have hR : ∀ w, e₀.Problem w → w.clauseHolds lits.toList = true := fun w hw =>
    ho.implied w (hs.reaches.fit.problem hw)
  have hs₁ : e₀.Steered e₀.Problem good e := by
    rcases hcases with ⟨rfl, hground⟩ | hforcing
    · refine Engine.steered_of_fact hs (fun w hw => ?_) hground h
      simpa [World.clauseHolds_iff] using hR w hw
    · exact Engine.steered_of_learn hs hforcing hR h
  obtain ⟨hr, hn⟩ := Engine.reaches_of_decay hs₁.reaches.fit
  exact hs₁.of_network hr hn

end Solver

/-! ## Directed solvers -/

/-- A solver whose search has been directed since it was in the state `s₀`. If it has stopped being
`ok`, there was no world left. -/
structure Directed (good : Prop) (s₀ s : Solver) : Prop where
  inert : s₀.ok = false → s = s₀
  steered : s₀.ok = true →
    s₀.engine.Steered s₀.engine.Problem (s.ok = true ∧ good) s.engine
  idle : s.ok = true → s.engine.Idle
  refuted : s₀.ok = true → s.ok = false → ∀ w, ¬ s₀.engine.Problem w

/-- Every state of a run may be the first of a search that is directed. -/
theorem directed_of_valid (hv : Valid rules s L) : Directed (¬ L.overlooked) s s where
  inert _ := rfl
  steered hok :=
    Engine.steered_of_ground (hv.resting hok).fit hv.ground fun hg => (hv.resting hok).watching hg.2
  idle hok := (hv.resting hok).idle
  refuted hok hno := by
    rw [hok] at hno
    cases hno

namespace Directed

/-- A solver that is `ok` was so when the search began. -/
theorem ok (hd : Directed good s₀ s) (hok : s.ok = true) : s₀.ok = true := by
  cases h : s₀.ok with
  | true => rfl
  | false => rw [← h, ← hd.inert h, hok]

/-- The engine is reached by steps from the one in which the search began. -/
theorem reaches (hd : Directed good s₀ s) (hf : s₀.engine.Fit fun _ => False) :
    s₀.engine.Reaches (fun _ => False) s.engine := by
  cases h : s₀.ok with
  | true => exact (hd.steered h).reaches.anti fun _ => False.elim
  | false =>
      rw [hd.inert h]
      exact .refl hf

/-- Back at the ground level the solver is between two calls again. -/
theorem valid (hd : Directed (¬ L.overlooked) s₀ s) (hv : Valid rules s₀ L)
    (hground : s.engine.trail.level = 0) : Valid rules s L := by
  have hr₀ := hd.reaches hv.fit
  have hloadable := hv.loadable.reaches hr₀
  have hproblem : s.ok = true → ∀ w, s.engine.Problem w ↔ s₀.engine.Problem w := fun hok w =>
    ⟨hr₀.evolves.problem w, (hd.steered (hd.ok hok)).reaches.fit.problem⟩
  refine ⟨hloadable.fit, hground, hloadable.decides, fun hok => ?_, fun hok w hw => ?_,
    fun hp hok w hw => ?_, fun hp hno w hw => ?_, fun hok ho w hw => ?_, hv.uncanceled,
    hloadable.older, hloadable.recalls⟩
  · have hs := hd.steered (hd.ok hok)
    exact hs.reaches.resting (hv.resting (hd.ok hok)) hground (hd.idle hok) fun hg =>
      (hs.attentive ⟨hok, hg⟩).watching_of_ground hs.valid hground
  · exact hv.sound (hd.ok hok) w ((hproblem hok w).1 hw)
  · exact (hproblem hok w).2 (hv.exact hp (hd.ok hok) w hw)
  · cases h₀ : s₀.ok with
    | true => exact hd.refuted h₀ hno w (hv.exact hp h₀ w hw)
    | false => exact hv.refuted hp h₀ w hw
  · exact hv.overlooked (hd.ok hok) ho w ((hproblem hok w).1 hw)

/-- A step that stays `ok` and leaves nothing waiting. -/
theorem step (hd : Directed good s₀ s) (hok : s.ok = true) (hok' : s'.ok = true)
    (hs : s₀.engine.Steered s₀.engine.Problem (s.ok = true ∧ good) s.engine →
      s₀.engine.Steered s₀.engine.Problem (s.ok = true ∧ good) s'.engine)
    (hidle : s'.engine.Idle) : Directed good s₀ s' where
  inert hno := by
    rw [hd.ok hok] at hno
    cases hno
  steered h₀ := (hs (hd.steered h₀)).mono fun hg => ⟨hok, hg.2⟩
  idle _ := hidle
  refuted _ hno := by
    rw [hok'] at hno
    cases hno

end Directed

/-! ## Steps -/

/-- What a lesson leaves to be learnt is owed. -/
theorem owed_of_right {lesson : Lesson} {t : Trail} {R : World → Prop} {lits : Array Lit} {k : Nat}
    (hright : lesson.Right t R) (hv : t.Valid) (hcount : t.varCount ≤ s.engine.trail.varCount)
    (hR : ∀ w, s.engine.Problem w → R w)
    (hlesson : lesson = .clause k lits ∨ ∃ l, lesson = .unit l ∧ k = 0 ∧ lits = #[l])
    (hclause : s.pending.clause = some lits) (hlevel : s.pending.level = some k) : s.Owed := by
  intro lits' hlits
  obtain rfl := Option.some.inj (hclause.symm.trans hlits)
  have hknown : ∀ {l : Lit}, l.neg ∈ t → l.var.index < s.engine.trail.varCount := fun {l} hl =>
    Nat.lt_of_lt_of_le (hv.lt_varCount (l := l.neg) hl) hcount
  rcases hlesson with rfl | ⟨l, rfl, rfl, rfl⟩
  -- a clause of several literals, of which the first is on the level of the conflict
  · obtain ⟨ha, hholds⟩ := hright
    have htwo := ha.two_le
    rw [Array.length_toList] at htwo
    refine ⟨ha.distinct, fun l hl => ?_, fun w hw => hholds w (hR w hw), k, hlevel, ?_⟩
    · obtain ⟨m, hm, hneg, -⟩ := ha.first
      obtain ⟨ls, hls⟩ := List.head?_eq_some_iff.1 hm
      have htail := ha.tail
      rw [hls] at hl htail
      rcases List.mem_cons.1 hl with rfl | hl
      · exact hknown hneg
      · exact hknown (htail l hl).1
    · -- the second literal is above the ground level
      obtain ⟨m, hm, hlev⟩ := ha.second
      obtain ⟨l, ls, hls⟩ := List.exists_cons_of_length_pos (l := lits.toList) (by
        rw [Array.length_toList]
        omega)
      have hmem : m ∈ lits.toList.tail := by
        rw [hls] at hm ⊢
        exact List.mem_of_getElem? (by simpa using hm)
      have hpos := (ha.tail m hmem).2.1
      omega
  · obtain ⟨-, hneg, -, hholds⟩ := hright
    refine ⟨by simp, fun m hm => ?_, fun w hw => ?_, 0, hlevel, by simp⟩
    · rw [List.mem_singleton.1 hm]
      exact hknown hneg
    · rw [World.clauseHolds_iff]
      exact ⟨l, List.mem_singleton_self l, hholds w (hR w hw)⟩

/-- Drawing the lesson of a conflict leaves something to be learnt, or shows that there is no world
left. -/
theorem directed_of_keepLesson {failed : Handle} (h₀ : s₀.ok = true) (hok : s.ok = true)
    (hs : s₀.engine.Steered s₀.engine.Problem (0 < s.engine.trail.level ∧ good) s.engine)
    (hidle : s.engine.Idle) (hconf : s.engine.network.Conflict failed)
    (hground : s.engine.trail.level = 0 → ∀ w, ¬ s₀.engine.Problem w)
    (h : s.keepLesson failed = .ok s') : Directed good s₀ s' ∧ s'.Owed := by
  obtain ⟨lesson, e, hanalyze, hkept⟩ := Solver.keepsLesson_of_keepLesson h
  obtain ⟨hs₁, hright, htrail⟩ := Engine.steered_of_analyze hs hconf hanalyze
  have hidle₁ : e.Idle := by
    rw [Engine.Idle, htrail]
    exact hidle
  have hno : ∀ {P : Prop}, s₀.ok = false → P := fun hno => by
    rw [h₀] at hno
    cases hno
  -- above the ground level the solver stays `ok`, with a new lesson
  have hstays : 0 < s.engine.trail.level → ∀ pending : Pending,
      Directed good s₀ { s with engine := e, pending } := fun hpos pending =>
    ⟨hno, fun _ => hs₁.mono fun hg => ⟨hpos, hg.2⟩, fun _ => hidle₁, fun _ hno => by
      rw [show s.ok = false from hno] at hok
      cases hok⟩
  have hcount : s.engine.trail.varCount ≤ e.trail.varCount :=
    Nat.le_of_eq (congrArg Trail.varCount htrail.symm)
  have hproblem : ∀ w, e.Problem w → s₀.engine.Problem w := hs₁.reaches.evolves.problem
  cases hkept with
  | unsatisfiable hcancel =>
      refine ⟨⟨hno, fun _ => ?_, by simp, fun _ _ => hground hright⟩, Solver.owed_of_none rfl⟩
      exact (Engine.steered_of_cancelUntil hs₁ hcancel).mono fun hg => absurd hg.1 (by simp)
  | unit l =>
      exact ⟨hstays hright.1 _, owed_of_right hright hs.valid hcount hproblem
        (Or.inr ⟨l, rfl, rfl, rfl⟩) rfl rfl⟩
  | clause level lits =>
      have hpos : 0 < s.engine.trail.level := by
        have := hright.1.below
        omega
      exact ⟨hstays hpos _, owed_of_right hright hs.valid hcount hproblem (Or.inl rfl) rfl rfl⟩

/-- A propagation, and the lesson of the conflict that it may end with. -/
theorem directed_of_propagateStep (h₀ : s₀.ok = true) (hok : s.ok = true)
    (hs : s₀.engine.Steered s₀.engine.Problem good s.engine) (ho : s.Owed)
    (h : s.propagateStep = .ok (b, s')) : Directed good s₀ s' ∧ s'.Owed := by
  rcases Solver.propagateStep_eq_ok.1 h with ⟨-, e, hprop, rfl⟩ | ⟨-, a, e, hprop, hkeep⟩
  · obtain ⟨hidle, -, -, -, hs₁⟩ := Engine.steered_of_propagate hs hprop
    have hs₂ := hs₁ fun _ hno => absurd rfl hno
    have hp : s.engine.Propagated s₀.engine.Problem False none e :=
      Engine.propagated_of_propagate hs.reaches.fit False.elim hprop
    refine ⟨⟨fun hno => ?_, fun _ => hs₂.mono And.right, fun _ => hidle, fun _ hno => ?_⟩,
      ho.evolves hp.reaches.evolves rfl rfl⟩
    · rw [h₀] at hno
      cases hno
    · rw [show s.ok = false from hno] at hok
      cases hok
  · -- above the ground level a failure leaves the network attentive, and at it no world is left
    obtain ⟨hidle, -, hlevel, hconf, hs₁⟩ :=
      Engine.steered_of_propagate (hs.mono (And.right : 0 < e.trail.level ∧ good → good)) hprop
    have hs₂ := hs₁ fun hg _ => hlevel ▸ hg.1
    obtain ⟨hconf, hground⟩ := hconf a rfl
    exact directed_of_keepLesson (s := { s with engine := e }) h₀ hok hs₂ hidle hconf
      (fun hg => hground (hlevel ▸ hg)) hkeep

/-- Every call that directs a solver that is `ok` keeps what is known of it. -/
theorem directed_of_steer (hd : Directed good s₀ s) (hok : s.ok = true) (ho : s.Owed)
    (h : Steer s b s') : Directed good s₀ s' ∧ s'.Owed := by
  have h₀ := hd.ok hok
  have hs := (hd.steered h₀).mono fun hg : good => ⟨hok, hg⟩
  have hidle := hd.idle hok
  cases h with
  | start h =>
      obtain ⟨rfl, rfl⟩ := Prod.mk.inj (Except.ok.inj ((Solver.start_of_idle hidle).symm.trans h))
      exact ⟨hd.step hok hok id hidle, ho.evolves (.refl _) rfl rfl⟩
  | decide v phase h =>
      simp only [Solver.decide, bind_eq_ok] at h
      obtain ⟨e, hdecide, h⟩ := h
      obtain ⟨hs₁, -⟩ := Engine.steered_of_decideLit hs hidle hdecide
      have hr := (Engine.reaches_of_decideLit hs.reaches.fit hidle hdecide).1
      exact directed_of_propagateStep (s := { s.setUnread true with engine := e }) h₀ hok hs₁
        (ho.evolves hr.evolves rfl rfl) h
  | undo v h =>
      obtain ⟨k, e, hcancel, rfl⟩ := Solver.undo_eq_ok h
      have hidle' := Engine.idle_of_cancelUntil hs.valid hidle hcancel
      exact ⟨hd.step hok hok (fun hs => Engine.steered_of_cancelUntil hs hcancel) hidle',
        ho.evolves (Engine.reaches_of_cancelUntil hs.reaches.fit hcancel).evolves rfl rfl⟩
  | read known => exact ⟨hd.step hok hok id hidle, ho.evolves (.refl _) rfl rfl⟩
  | learn hforces h =>
      obtain ⟨lits, l, e, howes, hlearn, hcases, h⟩ :=
        Solver.exists_learnt hforces ho hs.valid h
      exact directed_of_propagateStep (s := s.learnt e) h₀ hok
        (Solver.steered_of_learnt hs howes hcases hlearn) (Solver.owed_of_none rfl) h

/-! ## What is overlooked -/

namespace Directed

/-- A constraint is overlooked if it is violated. -/
theorem watching_iff (hd : Directed good s₀ s) (hok : s.ok = true) (hg : good) :
    s.engine.Watching ↔ ¬ s.engine.Overlooks := by
  have hs := hd.steered (hd.ok hok)
  refine ⟨fun hw ho => ?_, hs.watching ⟨hok, hg⟩⟩
  obtain ⟨a, c, hc, hfalse⟩ := ho
  exact (Network.Watching.atFixpoint hw hs.reaches.fit.sane (hd.idle hok) hc).not_falsified
    hs.valid hfalse

end Directed

/-- A propagation that succeeds forgets nothing. -/
theorem watching_of_propagateStep (hf : s.engine.Fit R) (hw : s.engine.Watching)
    (h : s.propagateStep = .ok (true, s')) : s'.ok = s.ok ∧ s'.engine.Watching := by
  rcases Solver.propagateStep_eq_ok.1 h with ⟨-, e, hprop, rfl⟩ | ⟨hno, -⟩
  · exact ⟨rfl,
      (Engine.propagated_of_propagate hf (fun _ : True => hw) hprop).watching rfl trivial⟩
  · cases hno

/-- While the calls answer with true, nothing is overlooked. -/
theorem watching_of_steer (hd : Directed good s₀ s) (hok : s.ok = true) (ho : s.Owed)
    (hw : s.engine.Watching) (h : Steer s true s') : s'.ok = s.ok ∧ s'.engine.Watching := by
  have hf := (hd.steered (hd.ok hok)).reaches.fit
  have hidle := hd.idle hok
  cases h with
  | start h =>
      obtain ⟨-, rfl⟩ := Prod.mk.inj (Except.ok.inj ((Solver.start_of_idle hidle).symm.trans h))
      exact ⟨rfl, hw⟩
  | decide v phase h =>
      simp only [Solver.decide, bind_eq_ok] at h
      obtain ⟨e, hdecide, h⟩ := h
      obtain ⟨hr, -, hwatch⟩ := Engine.reaches_of_decideLit hf hidle hdecide
      exact watching_of_propagateStep (s := { s.setUnread true with engine := e }) hr.fit
        (hwatch hw) h
  | undo v h =>
      obtain ⟨k, e, hcancel, rfl⟩ := Solver.undo_eq_ok h
      exact ⟨rfl, Engine.watching_of_cancelUntil hf hw hcancel⟩
  | read known => exact ⟨rfl, hw⟩
  | learn hforces h =>
      obtain ⟨lits, l, e, howes, hlearn, hcases, h⟩ :=
        Solver.exists_learnt hforces ho hf.sane.trail h
      have hR : ∀ w, s₀.engine.Problem w → w.clauseHolds lits.toList = true := fun w hw =>
        howes.implied w (hf.problem hw)
      -- a fact is put on the ground level, a longer clause on the level it asserts
      have hlearnt : e.Fit s₀.engine.Problem ∧ e.Watching := by
        rcases hcases with ⟨rfl, hground⟩ | hforcing
        · rw [Engine.learn_singleton] at hlearn
          obtain ⟨hr, -, hwatch, -⟩ := Engine.reaches_of_fact hf
            (fun w hw => by simpa [World.clauseHolds_iff] using hR w hw) hground hlearn
          exact ⟨hr.fit, hwatch hw⟩
        · obtain ⟨hr, -, hwatch, -⟩ := Engine.reaches_of_learn_clause hf hforcing hR hlearn
          exact ⟨hr.fit, hwatch _ hw⟩
      obtain ⟨hr, hn⟩ := Engine.reaches_of_decay hlearnt.1
      have hwatch : e.decay.countTowardsLimit.Watching := by
        rw [Engine.Watching, hn]
        exact hlearnt.2
      exact watching_of_propagateStep (s := s.learnt e) hr.fit hwatch h

/-! ## Sessions -/

theorem pending_of_whileOk (step : Engine → Checked (Bool × Engine))
    (h : s.whileOk step = .ok (b, s')) : s'.pending = s.pending := by
  rcases Solver.whileOk_eq_ok.1 h with ⟨-, _, -, rfl⟩ | ⟨-, -, rfl⟩
  · rfl
  · rfl

theorem pending_of_demand {d : Demand} (h : s.demand d = .ok (b, s')) :
    s'.pending = s.pending := by
  have hclause : ∀ {s₁ s₂ : Solver} {b : Bool} {lits : List Lit},
      Receiver.addClause s₁ lits = .ok (b, s₂) → s₂.pending = s₁.pending := fun {_ _ _ lits} =>
    pending_of_whileOk fun e => e.addClause lits
  have hatMost : ∀ {s₁ s₂ : Solver} {b : Bool} {lits : List Lit} {bound : Nat},
      Receiver.addAtMost s₁ lits bound = .ok (b, s₂) → s₂.pending = s₁.pending :=
    fun {_ _ _ lits bound} => pending_of_whileOk fun e => e.addAtMost lits bound
  have hatLeast : ∀ {s₁ : Solver} {lits : List Lit} {bound : Nat},
      Receiver.addAtLeast s₁ lits bound = .ok (b, s') → s'.pending = s₁.pending := by
    intro s₁ lits bound h
    rw [Receiver.addAtLeast] at h
    split at h
    next => exact hclause h
    next => exact hatMost h
  cases d with
  | clause lits => exact hclause h
  | atMost lits bound => exact hatMost h
  | atLeast lits bound => exact hatLeast h
  | exactly lits bound =>
      -- the lower bound is added only if the upper one was accepted
      rcases Receiver.addExactly_eq_ok.1 h with ⟨s₁, hupper, hlower⟩ | ⟨hupper, -⟩
      · exact (hatLeast hlower).trans (hatMost hupper)
      · exact hatMost hupper

/-- The calls of a run leave the pending clause alone. -/
theorem pending_of_call (h : Call rules s L s' L') : s'.pending = s.pending := by
  cases h with
  | newVar negated decision _ h =>
      obtain ⟨_, -, rfl⟩ := Solver.newVar_eq_ok.1 h
      rfl
  | add d _ _ h => exact pending_of_demand h
  | preprocess h => exact pending_of_whileOk _ h
  | solve budget assumptions handler h _ =>
      simp only [Solver.solve, returns_bind] at h
      obtain ⟨_, _, -, h⟩ := h
      split at h
      next =>
          simp only [returns_bind, returns_pure] at h
          obtain ⟨_, _, _, _, _, ⟨rfl, -⟩, _, _, -, heq, -⟩ := h
          obtain ⟨-, rfl⟩ := Prod.mk.inj heq
          rfl
      next =>
          simp only [returns_bind, returns_pure] at h
          obtain ⟨_, _, ⟨rfl, -⟩, _, _, -, heq, -⟩ := h
          obtain ⟨-, rfl⟩ := Prod.mk.inj heq
          rfl
  | save h =>
      obtain ⟨-, -, rfl⟩ := Solver.save_eq_ok.1 h
      rfl

/-- In every session the search goes back to a state between two calls. -/
theorem directed_of_session (h : Session rules s L) :
    ∃ s₀, Valid rules s₀ L ∧ Directed (¬ L.overlooked) s₀ s ∧ s.Owed := by
  induction h with
  | @new settings s h =>
      have hv : Valid rules s {} := valid_of_new h
      refine ⟨s, hv, directed_of_valid hv, Solver.owed_of_none ?_⟩
      simp only [Solver.new, bind_eq_ok, pure_eq_ok] at h
      obtain ⟨_, -, rfl⟩ := h
      rfl
  | @call s s' L L' _ hground h ih =>
      obtain ⟨s₀, hv, hd, ho⟩ := ih
      -- the search begins anew in the state after the call
      have hv₁ := hd.valid hv hground
      have hv₂ := valid_of_call hv₁ h
      have hpending := pending_of_call h
      exact ⟨s', hv₂, directed_of_valid hv₂, ho.evolves (evolves_of_call hv₁ h)
        (congrArg Pending.clause hpending) (congrArg Pending.level hpending)⟩
  | @load s s' L snapshot added younger older _ hsaved h ih =>
      obtain ⟨s₀, hv, hd, -⟩ := ih
      -- a load goes back by itself, whatever levels are open
      have hv₁ := valid_of_load (hv.loadable.reaches (hd.reaches hv.fit)) hsaved h
      refine ⟨s', hv₁, directed_of_valid hv₁, Solver.owed_of_none ?_⟩
      obtain ⟨-, _, _, -, rfl⟩ := Solver.load_eq_ok.1 h
      rfl
  | steer _ hok h ih =>
      obtain ⟨s₀, hv, hd, ho⟩ := ih
      obtain ⟨hd', ho'⟩ := directed_of_steer hd hok ho h
      exact ⟨s₀, hv, hd', ho'⟩

/-- A run is a session in which nobody directs the search. -/
theorem session_of_run (h : Run rules s L) : Session rules s L := by
  induction h with
  | new h => exact .new h
  | call hr h ih => exact ih.call (valid_of_run hr).ground h
  | load _ hsaved h ih => exact ih.load hsaved h

end CardSat
