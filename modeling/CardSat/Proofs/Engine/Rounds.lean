import CardSat.Proofs.Engine.Search

set_option autoImplicit false

/-! # The rounds of a search

Every round of a search begins with a propagation. `Engine.Round` are the states in which a round
may begin, whatever the budget, the handler and the limit of conflicts say: the first one, and those
after a decision, a lesson or a restart. A search that returns has come to such a state and ended
there (`Engine.Close`), so what the four steps keep holds at the end of a search as well as in the
middle of one.

This is the run lemma of a search, made once. A search is three loops inside each other, with limits
and a handler that decide when each of them ends. An invariant of all of its states is shown by four
cases here, and none of them mentions a loop.
-/

namespace CardSat

namespace Engine

/-- The states in which a search that begins in `e` propagates. -/
inductive Round (task : Task) (e : Engine) : Engine → Prop
  | first : Round task e e
  | decide {e₁ e₂ e₃ e₄ e₅ e₆ : Engine} {l : Lit} (hr : Round task e e₁)
      (hpropagate : e₁.propagate = .ok (none, e₂)) (hsimplify : e₂.simplify = .ok e₃)
      (hreduce : e₃.reduce = .ok e₄) (hchoose : e₄.choose task.assumptions = .ok (.decide l, e₅))
      (hdecide : e₅.decideLit l = .ok e₆) : Round task e e₆
  | learn {e₁ e₂ e₃ : Engine} {h : Handle} (hr : Round task e e₁)
      (hpropagate : e₁.propagate = .ok (some h, e₂))
      (hlearn : { e₂ with conflicts := e₂.conflicts + 1 }.learnFrom h = .ok (true, e₃)) :
      Round task e e₃
  | restart {e₁ e₂ e₃ : Engine} (hr : Round task e e₁)
      (hpropagate : e₁.propagate = .ok (none, e₂)) (hcancel : e₂.cancelUntil 0 = .ok e₃) :
      Round task e { e₃ with starts := e₃.starts + 1 }

/-- How a search answers in a round that begins in a state, and the state in which it does. -/
inductive Close (task : Task) : Engine → Answer → Engine → Prop
  | interrupted {e₁ e₂ e₃ : Engine} (hpropagate : e₁.propagate = .ok (none, e₂))
      (hcancel : e₂.cancelUntil 0 = .ok e₃) : Close task e₁ (.interrupted e₂.trail.progress) e₃
  | failed {e₁ e₂ e₃ e₄ e₅ : Engine} {core : List Lit}
      (hpropagate : e₁.propagate = .ok (none, e₂)) (hsimplify : e₂.simplify = .ok e₃)
      (hreduce : e₃.reduce = .ok e₄)
      (hchoose : e₄.choose task.assumptions = .ok (.failed core, e₅)) :
      Close task e₁ (.unsat core) e₅
  | complete {e₁ e₂ e₃ e₄ e₅ : Engine} (hpropagate : e₁.propagate = .ok (none, e₂))
      (hsimplify : e₂.simplify = .ok e₃) (hreduce : e₃.reduce = .ok e₄)
      (hchoose : e₄.choose task.assumptions = .ok (.complete, e₅)) :
      Close task e₁ (.sat e₅.trail.model) e₅
  | refuted {e₁ e₂ e₃ : Engine} {h : Handle} (hpropagate : e₁.propagate = .ok (some h, e₂))
      (hlearn : { e₂ with conflicts := e₂.conflicts + 1 }.learnFrom h = .ok (false, e₃)) :
      Close task e₁ (.unsat []) e₃
  | canceled {e₁ e₂ : Engine} {h : Handle} (hpropagate : e₁.propagate = .ok (some h, e₂)) :
      Close task e₁ .canceled { e₂ with conflicts := e₂.conflicts + 1 }

/-- How a stretch of a search ends: it was in a round from which it came to its pause. -/
def Pausing (task : Task) (e : Engine) (e' : Engine) : Pause → Prop
  | .conflict h => ∃ e₁ e₂, Round task e e₁ ∧ e₁.propagate = .ok (some h, e₂) ∧
      e' = { e₂ with conflicts := e₂.conflicts + 1 }
  | .restart => ∃ e₁ e₂, Round task e e₁ ∧ e₁.propagate = .ok (none, e₂) ∧
      e₂.cancelUntil 0 = .ok e'
  | .answer a => ∃ e₁, Round task e e₁ ∧ Close task e₁ a e'

variable {e e' e₀ : Engine} {R : World → Prop} {good : Prop} {task : Task} {h : Handle}

/-- Every stretch goes from round to round. -/
theorem pausing_of_stretch {limit : Nat} : ∀ {rounds : Nat} {e : Engine} {p : Pause},
    Round task e₀ e → e.stretch task limit rounds = .ok (p, e') → Pausing task e₀ e' p := by
  intro rounds
  induction rounds with
  | zero => exact fun _ h => absurd h stretch_zero_ne_ok
  | succ rounds ih =>
      intro e p hr h
      cases turn_of_stretch h with
      | conflict hprop => exact ⟨e, _, hr, hprop, rfl⟩
      | interrupted hprop hcancel => exact ⟨e, hr, .interrupted hprop hcancel⟩
      | restart hprop _ hcancel => exact ⟨e, _, hr, hprop, hcancel⟩
      | failed hprop hsimp hred hchoose => exact ⟨e, hr, .failed hprop hsimp hred hchoose⟩
      | complete hprop hsimp hred hchoose => exact ⟨e, hr, .complete hprop hsimp hred hchoose⟩
      | decide hprop hsimp hred hchoose hdecide hrest =>
          exact ih (hr.decide hprop hsimp hred hchoose hdecide) hrest

section

variable {σ : Type} {st st' : σ} {handler : Handler (StateM σ)}

/-- An interval ends with an answer, or at a restart. -/
theorem pausing_of_interval {limit : Nat} : ∀ {rounds : Nat} {e : Engine} {st : σ}
    {o : Option Answer}, Round task e₀ e →
    Returns (e.interval task handler limit rounds) st (o, e') st' →
    Pausing task e₀ e' (o.elim .restart .answer) := by
  intro rounds
  induction rounds with
  | zero => exact fun _ h => absurd h returns_throw
  | succ rounds ih =>
      intro e st o hr h
      cases lap_of_interval h with
      | restart hstretch => exact pausing_of_stretch hr hstretch
      | answer hstretch => exact pausing_of_stretch hr hstretch
      | canceled hstretch =>
          obtain ⟨e₂, e₃, hr₂, hprop, rfl⟩ := pausing_of_stretch hr hstretch
          exact ⟨e₂, hr₂, .canceled hprop⟩
      | refuted hstretch hlearn =>
          obtain ⟨e₂, e₃, hr₂, hprop, rfl⟩ := pausing_of_stretch hr hstretch
          exact ⟨e₂, hr₂, .refuted hprop hlearn⟩
      | learn hstretch hlearn hrest =>
          obtain ⟨e₂, e₃, hr₂, hprop, rfl⟩ := pausing_of_stretch hr hstretch
          exact ih (hr₂.learn hprop hlearn) hrest

/-- The loop over the intervals ends with an answer, and the answer is given in some round. -/
theorem close_of_intervals {a : Answer} : ∀ {rounds restarts : Nat} {e : Engine} {st : σ},
    Round task e₀ { e with starts := e.starts + 1 } →
    Returns (e.intervals task handler rounds restarts) st (a, e') st' →
    ∃ e₁ e₂, Round task e₀ e₁ ∧ Close task e₁ a e₂ ∧ e₂.cancelUntil 0 = .ok e' := by
  intro rounds
  induction rounds with
  | zero =>
      intro restarts e st _ h
      exact absurd h returns_throw
  | succ rounds ih =>
      intro restarts e st hr h
      simp only [intervals, returns_bind, returns_checked] at h
      obtain ⟨length, _, ⟨-, rfl⟩, ⟨o, e₁⟩, st₁, hinterval, h⟩ := h
      have hp := pausing_of_interval hr hinterval
      cases o with
      | none =>
          -- the next interval begins with a round of its own
          obtain ⟨e₂, e₃, hr₂, hprop, hcancel⟩ := hp
          exact ih (hr₂.restart hprop hcancel) h
      | some a' =>
          obtain ⟨e₂, hr₂, hclose⟩ := hp
          simp only [returns_bind, returns_checked, returns_pure] at h
          obtain ⟨e₃, _, ⟨hcancel, -⟩, heq, -⟩ := h
          obtain ⟨rfl, rfl⟩ := Prod.mk.inj heq
          exact ⟨e₂, e₁, hr₂, hclose, hcancel⟩

/-- The state in which the first round of a search begins. -/
def opened (e : Engine) : Engine :=
  { e.report .searchStarted with
    solves := e.solves + 1
    starts := e.starts + 1
    learntLimit := e.learntLimit.reset e.database.counts.given }

/-- What a search that begins in `e` is asked to do. -/
def order (e : Engine) (restart : RestartStrategy) (budget : Budget) (as : List Lit) : Task :=
  ⟨restart, budget, as.toArray, e.conflicts, e.network.propagations⟩

/-- A search that returns goes from round to round, and answers in the last one. -/
theorem close_of_search {restart : RestartStrategy} {budget : Budget} {as : List Lit} {a : Answer}
    (h : Returns (e.search restart budget handler as) st (a, e') st') :
    ∃ e₁ e₂ e₃, Round (e.order restart budget as) e.opened e₁ ∧
      Close (e.order restart budget as) e₁ a e₂ ∧ e₂.cancelUntil 0 = .ok e₃ ∧
      e' = e₃.report .searchEnded := by
  simp only [search, returns_bind, returns_pure] at h
  obtain ⟨⟨a', e₃⟩, st₁, hint, heq, -⟩ := h
  obtain ⟨rfl, rfl⟩ := Prod.mk.inj heq
  have hfirst : Round (e.order restart budget as) e.opened e.opened := .first
  obtain ⟨e₁, e₂, hr, hclose, hcancel⟩ := close_of_intervals hfirst hint
  exact ⟨e₁, e₂, e₃, hr, hclose, hcancel, rfl⟩

end

/-! ## What holds in every round -/

/-- The bookkeeping at the start changes nothing that matters. -/
theorem reaches_of_opened (hf : e.Fit R) : e.Reaches R e.opened :=
  reaches_of_bookkeeping hf (.refl _) rfl hf.ready

/-- Counting a conflict. -/
theorem Broken.counted {as : Array Lit} (hb : Broken R good as e₀ e h) :
    Broken R good as e₀ { e with conflicts := e.conflicts + 1 } h :=
  ⟨hb.reaches.trans (reaches_of_bookkeeping hb.reaches.fit (.refl _) rfl hb.reaches.fit.ready),
    hb.assuming, hb.conflict, hb.below, hb.idle⟩

/-- In every round the search is between two steps. -/
theorem searching_of_round (hs : Searching R good task.assumptions e₀ e) (hr : Round task e e') :
    Searching R good task.assumptions e₀ e' := by
  induction hr with
  | first => exact hs
  | decide _ hprop hsimp hred hchoose hdecide ih =>
      obtain ⟨hidle, hnone, -⟩ := searching_of_propagate ih hprop
      obtain ⟨hs₁, hidle₁⟩ := searching_of_simplify (hnone rfl) hsimp
      obtain ⟨hs₂, hidle₂⟩ := searching_of_reduce hs₁ hred
      exact searching_of_decideLit (chosen_of_choose hs₂ (hidle₂ (hidle₁ hidle)) hchoose) hdecide
  | learn _ hprop hlearn ih =>
      have hb := ((searching_of_propagate ih hprop).2.2 _ rfl).counted
      exact (searching_of_learnFrom hb hlearn).2 rfl
  | restart _ hprop hcancel ih =>
      have hs' := searching_of_cancelUntil ((searching_of_propagate ih hprop).2.1 rfl) hcancel
      have hf := hs'.reaches.fit
      exact ⟨hs'.reaches.trans (reaches_of_bookkeeping hf (.refl _) rfl hf.ready), hs'.assuming,
        hs'.watching⟩

end Engine

end CardSat
