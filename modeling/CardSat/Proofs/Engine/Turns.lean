import CardSat.Engine.Search
import CardSat.Proofs.Returns

set_option autoImplicit false

/-! # The turns of a search

What the loops of a search do in one turn, with everything they test on the way: `Turn` for the
loop from one conflict to the next, and `Lap` for the one from one restart to the next. Statements
about a whole stretch or interval follow by induction on the number of turns. What a turn chooses
and learns is taken apart in the same way (`Chooses`, `LearnsFrom`).
-/

namespace CardSat

namespace Engine

/-- The ways to choose: the assumptions decide, or where none of them is left a literal is picked,
or there is none to be picked. -/
inductive Chooses (as : Array Lit) (e : Engine) : Choosing → Engine → Prop
  | assumed {e' : Engine} {c : Choosing}
      (hassumed : chooseAssumption as (as.size - e.trail.level) e = .ok (some c, e')) :
      Chooses as e c e'
  | complete {e₁ : Engine} {d : Decisions}
      (hassumed : chooseAssumption as (as.size - e.trail.level) e = .ok (none, e₁))
      (hpick : e₁.decisions.pick e₁.trail = .ok (none, d)) :
      Chooses as e .complete { e₁ with decisions := d }
  | decide {e₁ : Engine} {d : Decisions} {l : Lit}
      (hassumed : chooseAssumption as (as.size - e.trail.level) e = .ok (none, e₁))
      (hpick : e₁.decisions.pick e₁.trail = .ok (some l, d)) :
      Chooses as e (.decide l) { e₁ with decisions := d, decided := e₁.decided + 1 }

theorem chooses_of_choose {as : Array Lit} {e e' : Engine} {c : Choosing}
    (h : e.choose as = .ok (c, e')) : Chooses as e c e' := by
  simp only [choose, bind_eq_ok] at h
  obtain ⟨⟨o, e₁⟩, hassumed, h⟩ := h
  cases o with
  | some c' =>
      simp only [pure_eq_ok, Prod.mk.injEq] at h
      obtain ⟨rfl, rfl⟩ := h
      exact .assumed hassumed
  | none =>
      simp only [bind_eq_ok] at h
      obtain ⟨⟨next, d⟩, hpick, h⟩ := h
      cases next with
      | none =>
          simp only [pure_eq_ok, Prod.mk.injEq] at h
          obtain ⟨rfl, rfl⟩ := h
          exact .complete hassumed hpick
      | some l =>
          simp only [pure_eq_ok, Prod.mk.injEq] at h
          obtain ⟨rfl, rfl⟩ := h
          exact .decide hassumed hpick

/-- The ways to learn from a conflict, by what its analysis teaches. -/
inductive LearnsFrom (failed : Handle) (e : Engine) : Bool → Engine → Prop
  | unsatisfiable {e' : Engine} (hanalyze : e.analyze failed = .ok (.unsatisfiable, e')) :
      LearnsFrom failed e false e'
  | unit {e₁ e₂ e₃ : Engine} {l : Lit} (hanalyze : e.analyze failed = .ok (.unit l, e₁))
      (hcancel : e₁.cancelUntil 0 = .ok e₂) (hlearn : e₂.learn l #[l] = .ok e₃) :
      LearnsFrom failed e true e₃.decay.countTowardsLimit
  | clause {e₁ e₂ e₃ : Engine} {level : Nat} {lits : Array Lit} {l : Lit}
      (hanalyze : e.analyze failed = .ok (.clause level lits, e₁))
      (hcancel : e₁.cancelUntil level = .ok e₂) (hfirst : lits[0]? = some l)
      (hlearn : e₂.learn l lits = .ok e₃) :
      LearnsFrom failed e true e₃.decay.countTowardsLimit

theorem learnsFrom_of_learnFrom {failed : Handle} {e e' : Engine} {b : Bool}
    (h : e.learnFrom failed = .ok (b, e')) : LearnsFrom failed e b e' := by
  simp only [learnFrom, bind_eq_ok] at h
  obtain ⟨⟨lesson, e₁⟩, hanalyze, h⟩ := h
  cases lesson with
  | unsatisfiable =>
      simp only [pure_eq_ok, Prod.mk.injEq] at h
      obtain ⟨rfl, rfl⟩ := h
      exact .unsatisfiable hanalyze
  | unit l =>
      simp only [bind_eq_ok, pure_eq_ok, Prod.mk.injEq] at h
      obtain ⟨e₂, hcancel, e₃, hlearn, rfl, rfl⟩ := h
      exact .unit hanalyze hcancel hlearn
  | clause level lits =>
      simp only [bind_eq_ok, pure_eq_ok, Prod.mk.injEq, fetch_eq_ok] at h
      obtain ⟨e₂, hcancel, l, hfirst, e₃, hlearn, rfl, rfl⟩ := h
      exact .clause hanalyze hcancel hfirst hlearn

/-- One turn of a stretch that has `rounds` more of them. It pauses, or decides a literal and goes
on. -/
inductive Turn (task : Task) (limit rounds : Nat) (e : Engine) : Pause → Engine → Prop
  | conflict {e₁ : Engine} {h : Handle} (hpropagate : e.propagate = .ok (some h, e₁)) :
      Turn task limit rounds e (.conflict h) { e₁ with conflicts := e₁.conflicts + 1 }
  | interrupted {e₁ e₂ : Engine} (hpropagate : e.propagate = .ok (none, e₁))
      (hcancel : e₁.cancelUntil 0 = .ok e₂) :
      Turn task limit rounds e (.answer (.interrupted e₁.trail.progress)) e₂
  | restart {e₁ e₂ : Engine} (hpropagate : e.propagate = .ok (none, e₁))
      (hlimit : limit ≤ e₁.conflicts) (hcancel : e₁.cancelUntil 0 = .ok e₂) :
      Turn task limit rounds e .restart e₂
  | failed {e₁ e₂ e₃ e₄ : Engine} {core : List Lit} (hpropagate : e.propagate = .ok (none, e₁))
      (hsimplify : e₁.simplify = .ok e₂) (hreduce : e₂.reduce = .ok e₃)
      (hchoose : e₃.choose task.assumptions = .ok (.failed core, e₄)) :
      Turn task limit rounds e (.answer (.unsat core)) e₄
  | complete {e₁ e₂ e₃ e₄ : Engine} (hpropagate : e.propagate = .ok (none, e₁))
      (hsimplify : e₁.simplify = .ok e₂) (hreduce : e₂.reduce = .ok e₃)
      (hchoose : e₃.choose task.assumptions = .ok (.complete, e₄)) :
      Turn task limit rounds e (.answer (.sat e₄.trail.model)) e₄
  | decide {e₁ e₂ e₃ e₄ e₅ e' : Engine} {l : Lit} {p : Pause}
      (hpropagate : e.propagate = .ok (none, e₁)) (hsimplify : e₁.simplify = .ok e₂)
      (hreduce : e₂.reduce = .ok e₃) (hchoose : e₃.choose task.assumptions = .ok (.decide l, e₄))
      (hdecide : e₄.decideLit l = .ok e₅) (hrest : e₅.stretch task limit rounds = .ok (p, e')) :
      Turn task limit rounds e p e'

variable {task : Task} {limit rounds : Nat} {e e' : Engine}

theorem turn_of_stretch {p : Pause} (h : e.stretch task limit (rounds + 1) = .ok (p, e')) :
    Turn task limit rounds e p e' := by
  simp only [stretch, bind_eq_ok] at h
  obtain ⟨⟨failed, e₁⟩, hprop, h⟩ := h
  cases failed with
  | some a =>
      simp only [pure_eq_ok, Prod.mk.injEq] at h
      obtain ⟨rfl, rfl⟩ := h
      exact .conflict hprop
  | none =>
      dsimp only at h
      split at h
      next =>
          simp only [bind_eq_ok, pure_eq_ok, Prod.mk.injEq] at h
          obtain ⟨e₂, hcancel, rfl, rfl⟩ := h
          exact .interrupted hprop hcancel
      next =>
          split at h
          next hlimit =>
              simp only [bind_eq_ok, pure_eq_ok, Prod.mk.injEq] at h
              obtain ⟨e₂, hcancel, rfl, rfl⟩ := h
              exact .restart hprop hlimit hcancel
          next =>
              simp only [bind_eq_ok] at h
              obtain ⟨e₂, hsimp, e₃, hred, ⟨c, e₄⟩, hchoose, h⟩ := h
              cases c with
              | failed core =>
                  simp only [pure_eq_ok, Prod.mk.injEq] at h
                  obtain ⟨rfl, rfl⟩ := h
                  exact .failed hprop hsimp hred hchoose
              | complete =>
                  simp only [pure_eq_ok, Prod.mk.injEq] at h
                  obtain ⟨rfl, rfl⟩ := h
                  exact .complete hprop hsimp hred hchoose
              | decide l =>
                  simp only [bind_eq_ok] at h
                  obtain ⟨e₅, hdecide, hrest⟩ := h
                  exact .decide hprop hsimp hred hchoose hdecide hrest

theorem stretch_zero_ne_ok {p : Pause} : e.stretch task limit 0 ≠ .ok (p, e') := by
  simp [stretch, throw_ne_ok]

section

variable {σ : Type} {st st' : σ} {handler : Handler (StateM σ)}

/-- One turn of an interval that has `rounds` more of them. It ends, or learns from a conflict and
goes on. -/
inductive Lap (task : Task) (handler : Handler (StateM σ)) (limit rounds : Nat) (e : Engine) (st' : σ) :
    Option Answer → Engine → Prop
  | restart {e' : Engine} (hstretch : e.stretch task limit (e.trail.varCount + 2) =
      .ok (.restart, e')) : Lap task handler limit rounds e st' none e'
  | answer {e' : Engine} {a : Answer} (hstretch : e.stretch task limit (e.trail.varCount + 2) =
      .ok (.answer a, e')) : Lap task handler limit rounds e st' (some a) e'
  | canceled {e' : Engine} {h : Handle} (hstretch : e.stretch task limit (e.trail.varCount + 2) =
      .ok (.conflict h, e')) : Lap task handler limit rounds e st' (some .canceled) e'
  | refuted {e₁ e' : Engine} {h : Handle} (hstretch : e.stretch task limit (e.trail.varCount + 2) =
      .ok (.conflict h, e₁)) (hlearn : e₁.learnFrom h = .ok (false, e')) :
      Lap task handler limit rounds e st' (some (.unsat [])) e'
  | learn {e₁ e₂ e' : Engine} {h : Handle} {st : σ} {o : Option Answer}
      (hstretch : e.stretch task limit (e.trail.varCount + 2) = .ok (.conflict h, e₁))
      (hlearn : e₁.learnFrom h = .ok (true, e₂))
      (hrest : Returns (e₂.interval task handler limit rounds) st (o, e') st') :
      Lap task handler limit rounds e st' o e'

theorem lap_of_interval {o : Option Answer}
    (h : Returns (e.interval task handler limit (rounds + 1)) st (o, e') st') :
    Lap task handler limit rounds e st' o e' := by
  simp only [interval, returns_bind, returns_checked] at h
  obtain ⟨⟨p, e₁⟩, _, ⟨hstretch, rfl⟩, h⟩ := h
  cases p with
  | restart =>
      obtain ⟨heq, -⟩ := returns_pure.1 h
      obtain ⟨rfl, rfl⟩ := Prod.mk.inj heq
      exact .restart hstretch
  | answer a =>
      obtain ⟨heq, -⟩ := returns_pure.1 h
      obtain ⟨rfl, rfl⟩ := Prod.mk.inj heq
      exact .answer hstretch
  | conflict a =>
      simp only [returns_bind] at h
      obtain ⟨go, st₁, -, h⟩ := h
      cases go with
      | false =>
          obtain ⟨heq, -⟩ := returns_pure.1 h
          obtain ⟨rfl, rfl⟩ := Prod.mk.inj heq
          exact .canceled hstretch
      | true =>
          simp only [if_true, returns_bind, returns_checked] at h
          obtain ⟨⟨b, e₂⟩, _, ⟨hlearn, rfl⟩, h⟩ := h
          cases b with
          | true => exact .learn hstretch hlearn h
          | false =>
              obtain ⟨heq, -⟩ := returns_pure.1 h
              obtain ⟨rfl, rfl⟩ := Prod.mk.inj heq
              exact .refuted hstretch hlearn

end

end Engine

end CardSat
