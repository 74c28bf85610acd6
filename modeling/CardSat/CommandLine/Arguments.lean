import CardSat.Journal
import CardSat.Settings
import CardSat.Text.Decimal

set_option autoImplicit false

/-! # Command-line arguments

A command line consists of options with a value (`--name value` or `--name=value`), flags
(`--name`) and up to two file names. `scan` sorts the arguments, `check` refuses combinations
that are not allowed, and `Options.ofUse` gives the options their meaning: a number that
cannot be read or is out of its range is ignored.
-/

namespace CardSat

namespace CommandLine

/-- The options that take a value. -/
def valued : List String := [
  "verb", "var-decay", "cla-decay", "rnd-freq", "rnd-seed", "ccmin-mode", "phase-saving",
  "rfirst", "rinc", "min-learnts", "conf-budget", "prop-budget", "timeout"]

/-- The options whose value is one of the levels 0, 1 and 2. -/
def levelled : List String := ["verb", "ccmin-mode", "phase-saving"]

/-- The options without a value. -/
def flags : List String := [
  "strict", "no-pre", "no-solve", "rnd-init", "no-rnd-init", "luby", "no-luby", "rcheck",
  "no-rcheck", "no-incremental"]

/-- The flags that exclude each other. -/
def exclusive : List (String × String) := [
  ("rnd-init", "no-rnd-init"), ("luby", "no-luby"), ("rcheck", "no-rcheck")]

/-- Why a command line is not run. -/
inductive Refusal where
  /-- It is not well-formed. -/
  | usage
  /-- It asks for help. -/
  | help
  /-- It asks for the version. -/
  | version
  deriving DecidableEq

/-- What a command line uses, in the order in which it does. -/
structure Use where
  /-- The options and flags, each with its value if it has one. -/
  options : List (String × Option String) := []
  files : List String := []

namespace Use

/-- Whether an option or flag is used. -/
def has (u : Use) (name : String) : Bool := u.options.any (·.1 = name)

/-- The value of an option. -/
def value? (u : Use) (name : String) : Option String := (u.options.lookup name).join

end Use

/-- Reads an argument that starts with a double dash. The answer is the name it uses, and the
value after an equality sign; leading dashes and equality signs are not part of them. -/
def splitLong (arg : String) : String × Option String :=
  let body := arg.toList.dropWhile (· = '-')
  match body.dropWhile (· ≠ '=') with
  | [] => (String.ofList body, none)
  | rest => (String.ofList (body.takeWhile (· ≠ '=')), some (String.ofList (rest.dropWhile (· = '='))))

/-- Whether an argument names options rather than being a value or file. -/
def isOption (arg : String) : Bool := arg.startsWith "-" && arg ≠ "-"

/-- Adds an option or flag. -/
def Use.add (u : Use) (name : String) (value : Option String) : Use :=
  { u with options := u.options ++ [(name, value)] }

/-- Adds the option that was left without a value, if there is one. -/
def Use.leave (u : Use) (awaiting : Option String) : Use :=
  awaiting.elim u fun name => u.add name none

/-- Sorts arguments. `awaiting` is the option whose value is still to come, and `plain` is set
once a double dash has said that only files follow. -/
def scan : (args : List String) → (awaiting : Option String) → (plain : Bool) → Use →
    Except Refusal Use
  | [], awaiting, _, u => .ok (u.leave awaiting)
  | arg :: rest, awaiting, plain, u =>
    if plain || !isOption arg then
      match awaiting with
      | some name => scan rest none plain (u.add name (some arg))
      | none =>
        if u.files.length < 2 then scan rest none plain { u with files := u.files ++ [arg] }
        else .error .usage
    else
      let u := u.leave awaiting
      if arg = "--" then scan rest none true u
      else if arg.startsWith "--" then
        let (name, value) := splitLong arg
        if valued.contains name then
          if value.isSome then scan rest none plain (u.add name value)
          else scan rest (some name) plain u
        else if flags.contains name then scan rest none plain (u.add name none)
        else if name = "help" then .error .help
        else if name = "version" then .error .version
        else .error .usage
      else if arg.startsWith "-h" then .error .help
      else if arg.startsWith "-V" then .error .version
      else .error .usage

/-- Refuses a repeated option, an option without its value, flags that exclude each other, a
level that is none, and a command line without a file. -/
def check (u : Use) : Except Refusal Unit :=
  let names := u.options.map (·.1)
  let repeated := names.any fun n => names.count n > 1
  let clashing := exclusive.any fun (a, b) => u.has a && u.has b
  let offLevel := u.options.any fun (n, v) =>
    levelled.contains n && ["0", "1", "2"].all (v.getD "" != ·)
  let valueless := u.options.any fun (n, v) => valued.contains n && v.isNone
  if repeated || clashing || offLevel || valueless || u.files.isEmpty then .error .usage
  else .ok ()

/-- What a run of the program is to do. -/
structure Options where
  /-- The reports that are shown; none if no report is. -/
  verbosity : Option Severity := some .info
  /-- Whether the header of the problem is compared with its constraints. -/
  strict : Bool := false
  /-- Whether the constraints are simplified before the search. -/
  preprocess : Bool := true
  /-- Whether there is a search. -/
  solve : Bool := true
  input : String
  output : Option String := none
  conflictBudget : Option Nat := none
  propagationBudget : Option Nat := none
  timeout : Option Float := none
  settings : Settings := {}

/-- The float that an option gives, if it is in range. -/
def Use.float? (u : Use) (name : String) (inRange : Float → Bool) : Option Float :=
  ((u.value? name).bind readFloat?).filter inRange

/-- The settings that a command line asks for. -/
def settingsOf (u : Use) : Settings :=
  let open01 (x : Float) : Bool := 0.0 < x && x < 1.0
  let d : Settings := {}
  { decision := { d.decision with
      varDecay := (u.float? "var-decay" open01).getD d.decision.varDecay
      randomFreq := (u.float? "rnd-freq" fun x => 0.0 ≤ x && x ≤ 1.0).getD d.decision.randomFreq
      randomSeed := (u.float? "rnd-seed" (0.0 < ·)).getD d.decision.randomSeed
      randomActivity := u.has "rnd-init"
      phaseSaving := match u.value? "phase-saving" with
        | some "0" => .never
        | some "1" => .topLevel
        | _ => .always }
    database := { d.database with
      clauseDecay := (u.float? "cla-decay" open01).getD d.database.clauseDecay }
    minimisation := match u.value? "ccmin-mode" with
      | some "0" => .never
      | some "1" => .basic
      | _ => .deep
    restart :=
      { luby := !u.has "no-luby"
        first := (u.float? "rfirst" (0.0 < ·)).getD d.restart.first
        inc := (u.float? "rinc" (1.0 < ·)).getD d.restart.inc }
    learning := { d.learning with
      minLimit := (((u.value? "min-learnts").bind (readInt? 0x80000000)).filter (0 ≤ ·)).elim
        d.learning.minLimit Int32.ofInt }
    engine := { incremental := !u.has "no-incremental", checkImplied := u.has "rcheck" } }

/-- The options that a command line asks for, with the files it names. -/
def Options.ofUse (u : Use) (input : String) (output : Option String) : Options where
  verbosity := match u.value? "verb" with
    | some "0" => none
    | some "2" => some .trace
    | _ => some .info
  strict := u.has "strict"
  preprocess := !u.has "no-pre"
  solve := !u.has "no-solve"
  input
  output
  conflictBudget := (u.value? "conf-budget").bind (readNat? UInt64.size)
  propagationBudget := (u.value? "prop-budget").bind (readNat? UInt64.size)
  timeout := u.float? "timeout" (· > 0.0)
  settings := settingsOf u

/-- Reads a command line. -/
def parse (args : List String) : Except Refusal Options := do
  let u ← scan args none false {}
  check u
  match u.files with
  | input :: rest => return Options.ofUse u input rest.head?
  | [] => throw .usage

end CommandLine

end CardSat
