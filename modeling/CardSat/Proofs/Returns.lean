import CardSat.Proofs.Checked

set_option autoImplicit false

/-! # Computations with a state

A search is accompanied by a handler that has a state of its own and changes it whenever it is
called. `Returns x st a st'` says what such a computation does, and the lemmas take apart its steps:
those of the handler, and those that do not touch its state.

Nothing is known of a handler. It may answer what it likes, and its state may be of any type, so a
theorem about all handlers is one about all times at which a search may be canceled.
-/

namespace CardSat

variable {σ α β : Type} {st st' : σ}

/-- Run from the state `st`, the computation returns `a` and leaves the state `st'`. -/
def Returns (x : ExceptT Fault (StateM σ) α) (st : σ) (a : α) (st' : σ) : Prop :=
  x.run.run st = (Except.ok a, st')

theorem returns_pure {a b : α} :
    Returns (pure a : ExceptT Fault (StateM σ) α) st b st' ↔ a = b ∧ st = st' := by
  constructor
  · intro h
    obtain ⟨ha, hst⟩ := Prod.mk.inj h
    exact ⟨Except.ok.inj ha, hst⟩
  · rintro ⟨rfl, rfl⟩
    rfl

theorem returns_throw {a : α} {f : Fault} :
    ¬ Returns (throw f : ExceptT Fault (StateM σ) α) st a st' := by
  intro h
  cases (Prod.mk.inj h).1

theorem returns_bind {x : ExceptT Fault (StateM σ) α} {f : α → ExceptT Fault (StateM σ) β}
    {b : β} :
    Returns (x >>= f) st b st' ↔ ∃ a st₁, Returns x st a st₁ ∧ Returns (f a) st₁ b st' := by
  rw [Returns, ExceptT.run_bind, StateT.run_bind]
  constructor
  · intro h
    rcases hx : x.run.run st with ⟨e | a, st₁⟩
    · rw [hx] at h
      cases (Prod.mk.inj h).1
    · rw [hx] at h
      exact ⟨a, st₁, hx, h⟩
  · rintro ⟨a, st₁, hx, hf⟩
    rw [show x.run.run st = (Except.ok a, st₁) from hx]
    exact hf

theorem returns_checked {x : Checked α} {a : α} :
    Returns (liftM x : ExceptT Fault (StateM σ) α) st a st' ↔ x = .ok a ∧ st' = st := by
  constructor
  · intro h
    obtain ⟨hx, hst⟩ := Prod.mk.inj h
    exact ⟨hx, hst.symm⟩
  · rintro ⟨rfl, rfl⟩
    rfl

theorem returns_handler {x : StateM σ α} {a : α} :
    Returns (liftM x : ExceptT Fault (StateM σ) α) st a st' ↔ x.run st = (a, st') := by
  constructor
  · intro h
    obtain ⟨ha, hst⟩ := Prod.mk.inj h
    exact Prod.ext (Except.ok.inj ha) hst
  · intro h
    obtain ⟨ha, hst⟩ := Prod.mk.inj h
    exact Prod.ext (congrArg Except.ok ha) hst

end CardSat
