import CardSat.Text.Column

set_option autoImplicit false

/-! # The journal

What a solver reports while it works. An `Event` is one report; `Event.lines` is its text and
`Event.severity` tells how important it is.
-/

namespace CardSat

/-- Where a solver stood when a snapshot was taken. -/
structure Snapshot where
  /-- Whether the constraints were still thought satisfiable. -/
  ok : Bool
  vars : Nat
  clauses : Nat
  /-- The number of the next learnt clause. -/
  learnts : Nat
  units : Nat
  deriving DecidableEq

/-- The fields of a snapshot with their values. -/
def Snapshot.text (s : Snapshot) : String :=
  "SolverState \x7b ok: " ++ toString s.ok ++ ", vars: " ++ toString s.vars ++
    ", clauses: " ++ toString s.clauses ++ ", learnts: " ++ toString s.learnts ++
    ", units: " ++ toString s.units ++ " \x7d"

/-- The importance of a report. -/
inductive Severity where
  | error
  | info
  | debug
  | trace
  deriving DecidableEq

namespace Severity

/-- The rank of a severity; greater ranks matter less. -/
def rank : Severity → Nat
  | error => 0
  | info => 1
  | debug => 2
  | trace => 3

/-- Whether a report of this severity is wanted when reports up to `limit` are. -/
def shownAt (s limit : Severity) : Bool := s.rank ≤ limit.rank

end Severity

/-- The state of a search when the limit of learnt clauses grew. -/
structure Progress where
  conflicts : Nat
  freeVars : Nat
  clauses : Nat
  clauseLits : Nat
  limit : Nat
  learnts : Nat
  litsPerLearnt : Float
  estimate : Float

/-- A row of the table of search statistics. -/
def Progress.row (p : Progress) : String :=
  "| " ++ column 9 (toString p.conflicts) ++ " | " ++ column 7 (toString p.freeVars) ++ " " ++
    column 8 (toString p.clauses) ++ " " ++ column 8 (toString p.clauseLits) ++ " | " ++
    column 8 (toString p.limit) ++ " " ++ column 8 (toString p.learnts) ++ " " ++
    column 6 (fixed 0 p.litsPerLearnt) ++ " | " ++ column 6 (fixed 3 (p.estimate * 100.0)) ++
    " % |"

/-- A report of a solver. -/
inductive Event where
  | searchStarted
  | searchEnded
  | progress (p : Progress)
  | simplified (clauses clausesLeft learnts learntsLeft : Nat)
  | reduced (learnts left : Nat)
  | rolledBack (vars clauses learnts units : Nat)
  | saved (s : Snapshot)
  | loaded (s : Snapshot) (ok : Bool)

namespace Event

/-- The importance of a report. -/
def severity : Event → Severity
  | searchStarted | searchEnded | progress _ => .info
  | reduced _ _ | rolledBack _ _ _ _ | saved _ | loaded _ _ => .debug
  | simplified _ _ _ _ => .trace

/-- The rule below a table. -/
def rule : String := "==============================================================================="

/-- The text of a report. -/
def lines : Event → List String
  | searchStarted => [
      "============================[ Search Statistics ]==============================",
      "| Conflicts |          ORIGINAL         |          LEARNT          | Progress |",
      "|           |    Vars  Clauses Literals |    Limit  Clauses Lit/Cl |          |",
      rule]
  | searchEnded => [rule]
  | progress p => [p.row]
  | simplified c c' l l' => ["Simplified: clauses " ++ toString c ++ " => " ++ toString c' ++
      ", learnts " ++ toString l ++ " => " ++ toString l']
  | reduced n n' => ["Reduced learnt clauses: " ++ toString n ++ " => " ++ toString n']
  | rolledBack v c l u => ["Rolled back to " ++ toString v ++ " vars, " ++ toString c ++
      " clauses, " ++ toString l ++ " learnts, " ++ toString u ++ " units"]
  | saved s => ["Saved state " ++ s.text]
  | loaded s ok => ["Loaded state " ++ s.text ++ ", ok = " ++ toString ok]

end Event

/-- The text of the reports up to a severity, oldest first. -/
def journalLines (limit : Severity) (events : Array Event) : List String :=
  (events.toList.filter fun e => e.severity.shownAt limit).flatMap Event.lines

end CardSat
