import CardSat.Proofs.Receiver
import CardSat.Solver.Stepwise

set_option autoImplicit false

/-! # The calls of a solver

Every call of a solver is taken apart once, into what the engine does and what is noted of it. What
the calls keep is proved from these equations, not from the definitions.

Most calls have the same shape: nothing is done in a solver that is not `ok`, and otherwise the
engine takes a step, whose answer becomes the new `ok` (`whileOk_eq_ok`). Saving and loading note an
event and are refused outside the incremental mode.
-/

namespace CardSat

namespace Solver

variable {s s' : Solver} {b : Bool} {snapshot : Snapshot}

theorem newVar_eq_ok {v : Var} {negated decision : Bool} :
    s.newVar negated decision = .ok (v, s') ↔
      ∃ e, s.engine.newVar negated decision = .ok (v, e) ∧ s' = { s with engine := e } := by
  simp only [newVar, bind_eq_ok, pure_eq_ok, Prod.mk.injEq]
  constructor
  · rintro ⟨⟨u, e⟩, he, rfl, rfl⟩
    exact ⟨e, he, rfl⟩
  · rintro ⟨e, he, rfl⟩
    exact ⟨(v, e), he, rfl, rfl⟩

/-- A solver that is not `ok` does not take the step. -/
theorem whileOk_eq_ok {step : Engine → Checked (Bool × Engine)} :
    s.whileOk step = .ok (b, s') ↔
      (s.ok = true ∧ ∃ e, step s.engine = .ok (b, e) ∧ s' = { s with ok := b, engine := e }) ∨
        s.ok = false ∧ b = false ∧ s = s' := by
  -- the two branches are told apart by what the solver was before
  cases hok : s.ok with
  | true =>
      simp only [whileOk, hok, if_true, bind_eq_ok, pure_eq_ok, Prod.mk.injEq]
      constructor
      · rintro ⟨⟨b', e⟩, he, rfl, rfl⟩
        exact .inl ⟨trivial, e, he, rfl⟩
      · rintro (⟨-, e, he, rfl⟩ | ⟨hno, -⟩)
        · exact ⟨(b, e), he, rfl, rfl⟩
        · cases hno
  | false =>
      simp only [whileOk, hok, Bool.false_eq_true, if_false, pure_eq_ok, Prod.mk.injEq, false_and,
        false_or, true_and]
      exact ⟨fun h => ⟨h.1.symm, h.2⟩, fun h => ⟨h.1.symm, h.2⟩⟩

theorem save_eq_ok : s.save = .ok (snapshot, s') ↔
    s.engine.settings.incremental = true ∧ s.engine.snapshot s.ok = .ok snapshot ∧
      s' = { s with engine := s.engine.report (.saved snapshot) } := by
  simp only [save, bind_eq_ok, require_eq_ok, pure_eq_ok, Prod.mk.injEq]
  constructor
  · rintro ⟨-, hi, snap, hsnap, rfl, rfl⟩
    exact ⟨hi, hsnap, rfl⟩
  · rintro ⟨hi, hsnap, rfl⟩
    exact ⟨(), hi, snapshot, hsnap, rfl, rfl⟩

theorem load_eq_ok : s.load snapshot = .ok s' ↔
    s.engine.settings.incremental = true ∧
      ∃ replayed e, s.engine.rollback snapshot = .ok (replayed, e) ∧ s' = { s with
        ok := snapshot.ok && replayed
        engine := e.report (.loaded snapshot (snapshot.ok && replayed))
        pending := {} } := by
  simp only [load, bind_eq_ok, require_eq_ok, pure_eq_ok]
  constructor
  · rintro ⟨-, hi, ⟨replayed, e⟩, hroll, rfl⟩
    exact ⟨hi, replayed, e, hroll, rfl⟩
  · rintro ⟨hi, replayed, e, hroll, rfl⟩
    exact ⟨(), hi, (replayed, e), hroll, rfl⟩

/-- A propagation of a directed search ends with nothing waiting, or with a conflict whose lesson is
kept. -/
theorem propagateStep_eq_ok : s.propagateStep = .ok (b, s') ↔
    (b = true ∧ ∃ e, s.engine.propagate = .ok (none, e) ∧ s' = { s with engine := e }) ∨
      b = false ∧ ∃ a e, s.engine.propagate = .ok (some a, e) ∧
        keepLesson { s with engine := e } a = .ok s' := by
  rw [propagateStep, bind_eq_ok]
  constructor
  · rintro ⟨⟨failed, e⟩, hprop, h⟩
    cases failed with
    | none =>
        obtain ⟨rfl, rfl⟩ := Prod.mk.inj (pure_eq_ok.1 h)
        exact .inl ⟨rfl, e, hprop, rfl⟩
    | some a =>
        obtain ⟨s₁, hkeep, h⟩ := bind_eq_ok.1 h
        obtain ⟨rfl, rfl⟩ := Prod.mk.inj (pure_eq_ok.1 h)
        exact .inr ⟨rfl, a, e, hprop, hkeep⟩
  · rintro (⟨rfl, e, hprop, rfl⟩ | ⟨rfl, a, e, hprop, hkeep⟩)
    · exact ⟨(none, e), hprop, rfl⟩
    · exact ⟨(some a, e), hprop, bind_eq_ok.2 ⟨s', hkeep, rfl⟩⟩

/-- How a lesson is kept. `e` is the engine after the analysis that has taught it. -/
inductive KeepsLesson (s : Solver) (e : Engine) : Lesson → Solver → Prop
  | unsatisfiable {e' : Engine} (hcancel : e.cancelUntil 0 = .ok e') :
      KeepsLesson s e .unsatisfiable { s with
        ok := false
        engine := e'
        pending := { s.pending with clause := none, level := none } }
  | unit (l : Lit) :
      KeepsLesson s e (.unit l) { s with
        engine := e
        pending := { s.pending with clause := some #[l], level := some 0 } }
  | clause (level : Nat) (lits : Array Lit) :
      KeepsLesson s e (.clause level lits) { s with
        engine := e
        pending := { s.pending with clause := some lits, level := some level } }

theorem keepsLesson_of_keepLesson {failed : Handle} (h : s.keepLesson failed = .ok s') :
    ∃ lesson e, s.engine.analyze failed = .ok (lesson, e) ∧ s.KeepsLesson e lesson s' := by
  simp only [keepLesson, bind_eq_ok] at h
  obtain ⟨⟨lesson, e⟩, hanalyze, h⟩ := h
  refine ⟨lesson, e, hanalyze, ?_⟩
  cases lesson with
  | unsatisfiable =>
      simp only [bind_eq_ok, pure_eq_ok] at h
      obtain ⟨e', hcancel, rfl⟩ := h
      exact .unsatisfiable hcancel
  | unit l =>
      obtain rfl := pure_eq_ok.1 h
      exact .unit l
  | clause level lits =>
      obtain rfl := pure_eq_ok.1 h
      exact .clause level lits

end Solver

end CardSat
