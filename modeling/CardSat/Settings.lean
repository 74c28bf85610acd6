import CardSat.Analysis
import CardSat.Database
import CardSat.Decision
import CardSat.Restart

set_option autoImplicit false

/-! # Settings of a solver

What can be set when a solver is made, and not later. The defaults are those of a new solver.
`incremental` decides whether constraints that were given may be removed and strengthened, and
whether snapshots can be taken: the two exclude each other.
-/

namespace CardSat

/-- How many learnt clauses are kept. -/
structure LearningSettings where
  /-- The least number at which the limit starts. -/
  minLimit : Int32 := 0
  /-- The limit starts at this multiple of the number of given constraints. -/
  sizeFactor : Float := 1.0 / 3.0
  /-- The factor by which the limit grows. -/
  sizeInc : Float := 1.1
  /-- The number of conflicts until it grows for the first time. -/
  firstGrowth : Int32 := 100
  /-- The factor by which the number of conflicts until the next time grows. -/
  growthInc : Float := 1.5

/-- How constraints may be treated. -/
structure EngineSettings where
  /-- Given constraints stay as they are, so that snapshots can be loaded. -/
  incremental : Bool := true
  /-- Clauses that propagation shows to follow from the others are not added. -/
  checkImplied : Bool := false

/-- The settings of a solver. -/
structure Settings where
  decision : DecisionSettings := {}
  database : DatabaseSettings := {}
  minimisation : Minimisation := .deep
  restart : RestartStrategy := {}
  learning : LearningSettings := {}
  engine : EngineSettings := {}

end CardSat
