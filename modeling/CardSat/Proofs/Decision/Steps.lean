import CardSat.Decision
import CardSat.Proofs.Table.Sparse

set_option autoImplicit false

/-! # What the operations on decisions do

One equation for each operation that changes what is known of variables: `takeBack`, `bump`,
`addVar` and `rebuild`. They open the operation once and say what it leaves, field by field; the
invariants of the decisions (`Decisions.Ready`, `Decisions.Stocked`, `Decisions.Recalls`) are shown
from them and do not look at the operations again.
-/

namespace CardSat

/-- Whether a value that is taken back is remembered. -/
def PhaseSaving.remembers (p : PhaseSaving) (fromTop : Bool) : Bool :=
  match p with
  | .never => false
  | .topLevel => fromTop
  | .always => true

/-- What is known of a variable after its literal was taken back. -/
def Choice.after (c : Choice) (remembers : Bool) (l : Lit) : Choice :=
  { c with negated := if remembers then l.negated else c.negated }

namespace Decisions

variable {d d' : Decisions} {t : Trail}

/-- Writes down what is known of the variable of a literal; the order of the caller is gone
through again. -/
def note (d : Decisions) (l : Lit) (c : Choice) : Decisions :=
  { d with choices := d.choices.insert l.var.index c, orderHead := 0 }

/-- Taking back a value notes the side where it is to be remembered, and puts a decision variable
into the queue. -/
theorem takeBack_eq_ok {l : Lit} {top : Bool} : d.takeBack l top = .ok d' ↔
    ∃ c, d.choices.get? l.var.index = some c ∧
      d' = if c.decision then
          (d.note l (c.after (d.settings.phaseSaving.remembers top) l)).enqueue l.var
        else d.note l (c.after (d.settings.phaseSaving.remembers top) l) := by
  have hafter : ∀ (c : Choice) (b : Bool),
      (if b then { c with negated := l.negated } else c) = c.after b l := by
    intro c b
    cases b <;> rfl
  simp only [takeBack, bind_eq_ok, pure_eq_ok, SparseTable.fetch_eq_ok]
  constructor
  · rintro ⟨c, hc, rfl⟩
    refine ⟨c, hc, ?_⟩
    rw [hafter]
    rfl
  · rintro ⟨c, hc, rfl⟩
    refine ⟨c, hc, ?_⟩
    rw [hafter]
    rfl

/-- The activities after that of a variable was raised. -/
def raise (d : Decisions) (v : Var) (raised : Float) : SparseTable Float :=
  if raised > varActivityLimit then
    (d.activities.map (· * varActivityScale)).insert v.index (raised * varActivityScale)
  else d.activities.insert v.index raised

/-- The variable is put back in its place in the queue. -/
theorem exists_of_bump {v : Var} (h : d.bump v = .ok d') :
    ∃ a increment, d.activities.get? v.index = some a ∧ d' =
      { d with
        increment
        activities := d.raise v (a + d.increment)
        queue := (d.queue.update (moreActive (d.raise v (a + d.increment))) v).2 } := by
  simp only [bump, activity, bind_eq_ok, pure_eq_ok, SparseTable.fetch_eq_ok] at h
  obtain ⟨a, ha, rfl⟩ := h
  refine ⟨a, if a + d.increment > varActivityLimit then d.increment * varActivityScale
    else d.increment, ha, ?_⟩
  rw [raise]
  split
  · rfl
  · rfl

/-- A variable that became known, before it is put into the queue. -/
structure Introduced (d : Decisions) (u : Var) (c : Choice) (d' : Decisions) : Prop where
  queue : d'.queue = d.queue
  order : d'.order = d.order
  orderHead : d'.orderHead = d.orderHead
  settings : d'.settings = d.settings
  activities : ∃ x, d'.activities = d.activities.insert u.index x
  choices : ∀ i, d'.choices.get? i = if i = u.index then some c else d.choices.get? i

/-- A new variable is known with its side, and waits if it may be decided. -/
theorem exists_of_addVar {u : Var} {negated decision : Bool}
    (h : d.addVar u negated decision = .ok d') : ∃ base, d.Introduced u ⟨negated, decision⟩ base ∧
      d' = if decision then base.enqueue u else base := by
  obtain ⟨generator, x, hset⟩ : ∃ generator x, setDecision { d with
      generator
      activities := d.activities.insert u.index x
      choices := d.choices.insert u.index ⟨negated, false⟩ } u decision = .ok d' := by
    unfold addVar at h
    exact ⟨_, _, h⟩
  simp only [setDecision, bind_eq_ok, SparseTable.fetch_eq_ok, SparseTable.get?_insert, if_true,
    Option.some.injEq] at hset
  obtain ⟨c, rfl, hset⟩ := hset
  cases decision with
  | false =>
      simp only [if_true, pure_eq_ok] at hset
      refine ⟨_, ?_, hset.symm.trans (if_neg Bool.false_ne_true).symm⟩
      exact ⟨rfl, rfl, rfl, rfl, ⟨x, rfl⟩, fun i => SparseTable.get?_insert _ _ _ _⟩
  | true =>
      simp only [Bool.true_eq_false, if_false, if_true, pure_eq_ok] at hset
      refine ⟨_, ?_, hset.symm.trans (if_pos rfl).symm⟩
      refine ⟨rfl, rfl, rfl, rfl, ⟨x, rfl⟩, fun i => ?_⟩
      rw [SparseTable.get?_insert, SparseTable.get?_insert]
      split <;> rfl

end Decisions

end CardSat
