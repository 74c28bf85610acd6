import CardSat.CnfPlus.Numbering
import CardSat.Model
import Std.Data.HashSet

set_option autoImplicit false

/-! # Models as text

`writeModel` lists the ids of the literals that a model makes true, closed by `0`.
`checkModel` tests the statements of a text against a model.
-/

namespace CardSat

namespace CnfPlus

/-- The id with the opposite sign, a signed 32-bit word. -/
def negateId (id : Int) : Int := (-id).bmod UInt32.size

/-- The ids of the literals that a model makes true, in ascending order of their variables.
Variables without an id are passed over. -/
def modelIds (ids : IdTable) (m : Model) : List Int :=
  m.entries.filterMap fun (i, value) => (ids.get? i).map fun id =>
    if value then id else negateId id

/-- The text of a model. -/
def writeModel (ids : IdTable) (m : Model) : String :=
  String.join ((modelIds ids m).map fun id => toString id ++ " ") ++ "0\n"

/-- The distinct ids of a list that belong to a set. -/
def countTrue (trueIds : Std.HashSet Int) (ids : List Int) : Nat :=
  (ids.mergeSort.eraseReps).countP trueIds.contains

/-- Whether a statement holds when the ids of a set are those of the true literals. Repeated
literals count once. -/
def Statement.holds (trueIds : Std.HashSet Int) : Statement → Bool
  | clause ids => ids.any trueIds.contains
  | atMost ids bound => countTrue trueIds ids ≤ bound
  | atLeast ids bound => countTrue trueIds ids ≥ bound

/-- Whether a model satisfies a text. It does not if it makes the literals of opposite ids
true, whatever the text is. -/
def checkModel (r : Reading) (ids : IdTable) (m : Model) : Except ReadError Bool :=
  let trueIds := Std.HashSet.ofList (modelIds ids m)
  if (modelIds ids m).any fun id => trueIds.contains (negateId id) then .ok false
  else r.outcome.map fun _ => r.statements.all (Statement.holds trueIds)

end CnfPlus

end CardSat
