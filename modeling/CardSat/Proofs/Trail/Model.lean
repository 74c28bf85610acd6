import CardSat.Semantics
import CardSat.Proofs.Trail

set_option autoImplicit false

/-! # The model of an assignment

A partial model stands for the worlds that agree with it. Those that agree with the model of a trail
are the ones in which the literals of the trail hold.

A search answers with the model of its trail when every variable that is decided has a value.
Variables that are not decided may have none, and the answer is right for every value they could get
(`holds_of_agrees`).
-/

namespace CardSat

/-- Whether a world gives every variable the value that a model gives it. -/
def Model.Agrees (m : Model) (w : World) : Prop :=
  ∀ (v : Var) (b : Bool), m.get? v.index = some b → w v = b

/-- There is such a world: variables without a value are false in it. -/
theorem Model.agrees_fill (m : Model) : m.Agrees fun v => (m.get? v.index).getD false := by
  intro v b hb
  show (m.get? v.index).getD false = b
  rw [hb, Option.getD_some]

namespace Trail

variable {t : Trail} {l : Lit} {v : Var}

/-- The model gives every variable the value of its cell. -/
theorem get?_model (t : Trail) (v : Var) :
    t.model.get? v.index = match (t.cellOf v).value with
      | .unset => none
      | .no => some false
      | .yes => some true := by
  simp only [model, SparseTable.get?, cellOf, Array.getD_eq_getD_getElem?, Array.getElem?_map]
  cases t.cells[v.index]? <;> rfl

/-- The model gives the variable of a true literal its side. -/
theorem get?_model_of_mem (hv : t.Valid) (hl : l ∈ t) :
    t.model.get? l.var.index = some !l.negated := by
  have hyes := (hv.truth_yes l).2 hl
  rw [truth] at hyes
  rw [get?_model]
  cases hneg : l.negated <;> cases hval : (t.cellOf l.var).value <;>
    simp_all [Truth.ofSide, Truth.neg]

/-- The model makes the literals of the trail true. -/
theorem makesTrue_model (hv : t.Valid) (hl : l ∈ t) : t.model.makesTrue l = true := by
  simp [Model.makesTrue, get?_model_of_mem hv hl]

/-- The literals of the trail hold in a world that agrees with its model. -/
theorem holds_of_agrees {w : World} (hv : t.Valid) (hw : t.model.Agrees w) (hl : l ∈ t) :
    l.holds w = true := by
  rw [Lit.holds, hw l.var _ (get?_model_of_mem hv hl)]
  cases l.negated <;> rfl

end Trail

end CardSat
