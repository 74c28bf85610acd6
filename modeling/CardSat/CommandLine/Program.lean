import CardSat.CnfPlus.ModelText
import CardSat.CommandLine.Arguments
import CardSat.Solver

set_option autoImplicit false

/-! # The program

Reads a problem, solves it, prints the verdict, writes the model to a file if one is named,
and checks the model against the problem. `run` needs the world only through a `Host`: files,
a clock and two streams of text.
-/

namespace CardSat

namespace CommandLine

/-- The world of a program. Failed file operations answer with the text of the error. -/
structure Host (m : Type → Type) where
  contents : String → m (Except String ByteArray)
  create : String → String → m (Except String Unit)
  /-- Seconds since some fixed moment. -/
  clock : m Float
  /-- Prints to the standard output. -/
  print : String → m Unit
  /-- Prints a line to the error stream. -/
  log : String → m Unit

/-- Why a run ends early. -/
inductive Failure where
  /-- The program cannot do what it was asked for. -/
  | error (text : String)
  /-- A call was refused. -/
  | fault (f : Fault)

/-- The verdict on a problem. -/
def verdict : Answer → String
  | .sat _ => "SATISFIABLE"
  | .unsat _ => "UNSATISFIABLE"
  | .interrupted _ | .canceled => "INDETERMINATE"

/-- The content of the output file. -/
def resultText (ids : CnfPlus.IdTable) : Answer → String
  | .sat model => "SAT\n" ++ CnfPlus.writeModel ids model
  | .unsat _ => "UNSAT\n"
  | .interrupted _ | .canceled => "INDET\n"

/-- The lines that sum up a run which took some seconds. -/
def statisticsLines (s : Statistics) (seconds : Float) : List String :=
  let rate (n : Nat) : String := "(" ++ fixed 0 (n.toFloat / seconds) ++ " / sec)"
  let share (part whole : Nat) : String :=
    column 4 (fixed 2 (part.toFloat * 100.0 / whole.toFloat))
  [ "restarts              : " ++ column 12 (toString s.restarts),
    "conflicts             : " ++ column 12 (toString s.conflicts) ++ "   " ++ rate s.conflicts,
    "decisions             : " ++ column 12 (toString s.decisions) ++ "   (" ++
      share s.randomDecisions s.decisions ++ " % random) " ++ rate s.decisions,
    "propagations          : " ++ column 12 (toString s.propagations) ++ "   " ++
      rate s.propagations,
    "conflict literals     : " ++ column 12 (toString s.learntLits) ++ "   (" ++
      share s.deletedLits (s.deletedLits + s.learntLits) ++ " % deleted)",
    "CPU time              : " ++ fixed 6 seconds ++ " s",
    "" ]

/-- An empty row of the table of problem statistics. -/
def emptyRow : String :=
  "|                                                                             |"

section

variable {m : Type → Type} [Monad m]

/-- Logs lines of a severity if they are wanted. -/
def logLines (host : Host m) (o : Options) (severity : Severity) (lines : List String) : m Unit :=
  match o.verbosity with
  | some limit => if severity.shownAt limit then lines.forM host.log else pure ()
  | none => pure ()

/-- Logs what a solver has reported, and empties its journal. -/
def flush (host : Host m) (o : Options) (s : Solver) : m Solver := do
  match o.verbosity with
  | some limit => (journalLines limit s.engine.journal).forM host.log
  | none => pure ()
  return { s with engine := { s.engine with journal := #[] } }

/-- Refuses to go on after an error of the world. -/
def orFail {α : Type} (x : m (Except String α)) : ExceptT Failure m α := do
  match ← x with
  | .ok a => return a
  | .error e => throw (.error e)

/-- Refuses to go on after a refused call. -/
def orFault {α : Type} (x : ExceptT Fault m α) : ExceptT Failure m α := do
  match ← (x.run : m (Except Fault α)) with
  | .ok a => return a
  | .error f => throw (.fault f)

/-- The handler of a run: it gives up when the time is up. -/
def handlerOf (host : Host m) (o : Options) (now : Float) : Handler m :=
  match o.timeout with
  | none => Handler.none
  | some timeout =>
    let deadline := Deadline.start ⟨timeout, 0.0, false⟩ now
    { Handler.none with onConflict := do return (deadline.onConflict (← host.clock)).1 }

/-- The budget of a run. -/
def budgetOf (o : Options) : Budget :=
  let b : Budget := {}
  let b := o.conflictBudget.elim b b.setConflicts
  o.propagationBudget.elim b b.setPropagations

/-- Solves the problem of a solver, unless simplifying it has already settled it or the options
forbid the search. -/
def answerOf (host : Host m) (o : Options) (s : Solver) (simplified : Bool) :
    ExceptT Failure m (Answer × Solver) := do
  let info (lines : List String) : ExceptT Failure m Unit :=
    (logLines host o .info lines : m Unit)
  if !simplified then
    info [Event.rule, "Solved by simplification"]
    return (.unsat [], s)
  else if o.solve then
    let handler := handlerOf host o (← host.clock)
    let (a, s) ← orFault (s.solve (budgetOf o) [] handler)
    return (a, ← (flush host o s : m Solver))
  else
    info [Event.rule]
    return (.interrupted 0.0, s)

/-- Solves the problem in a file as the options say. -/
def runProblem (host : Host m) (o : Options) : ExceptT Failure m Unit := do
  let info (lines : List String) : ExceptT Failure m Unit :=
    (logLines host o .info lines : m Unit)
  let s ← orFault (Solver.new o.settings : Checked Solver)
  let start ← host.clock
  info ["============================[ Problem Statistics ]=============================", emptyRow]
  let bytes ← orFail (host.contents o.input)
  let (ids, s) ← orFault (CnfPlus.receive (CnfPlus.readBytes o.strict bytes) s : Checked _)
  let ids ← match ids with
    | .ok ids => pure ids
    | .error e => throw (.error e.message)
  info [
    "|  Number of variables:  " ++ column 12 (toString s.varCount) ++
      "                                         |",
    "|  Number of clauses:    " ++ column 12 (toString s.clauseCount) ++
      "                                         |"]
  let parsed ← host.clock
  info ["|  Parse time:           " ++ column 12 (fixed 2 (parsed - start)) ++
    " s                                       |"]
  let (simplified, s) ← if o.preprocess then orFault (s.preprocess : Checked _) else pure (true, s)
  let s ← (flush host o s : m Solver)
  info ["|  Simplification time:  " ++ column 12 (fixed 2 ((← host.clock) - parsed)) ++
    " s                                       |", emptyRow]
  let (answer, s) ← answerOf host o s simplified
  info (statisticsLines s.statistics ((← host.clock) - start))
  host.print (verdict answer ++ "\n")
  if let some path := o.output then
    orFail (host.create path (resultText ids answer))
  if let .sat model := answer then
    let bytes ← orFail (host.contents o.input)
    match CnfPlus.checkModel (CnfPlus.readBytes false bytes) ids model with
    | .ok true => pure ()
    | .ok false => throw (.error "SELF-CHECK FAILED!")
    | .error e => throw (.error e.message)

/-- How to call the program. -/
def usageText : String :=
  "Usage: cardsat [OPTIONS] <input> [output]\n\nOptions with a value:\n" ++
    String.join (valued.map fun n => "  --" ++ n ++ " <" ++ n ++ ">\n") ++ "\nFlags:\n" ++
    String.join (flags.map fun n => "  --" ++ n ++ "\n") ++ "  --help\n  --version\n"

/-- The name and version of the program. -/
def versionText : String := "cardsat 0.0.1\n"

/-- Runs the program on a command line; the answer is its exit status. -/
def run (host : Host m) (args : List String) : m UInt32 := do
  match parse args with
  | .error .usage => do host.log usageText; return 1
  | .error .help => do host.print usageText; return 0
  | .error .version => do host.print versionText; return 0
  | .ok o =>
    match ← (runProblem host o).run with
    | .ok () => return 0
    | .error (.error text) => do logLines host o .error [text]; return 1
    | .error (.fault f) => do host.log (f.message.getD "refused call"); return 101

end

end CommandLine

end CardSat
