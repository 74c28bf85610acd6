import CardSat.Proofs.Engine.Search
import CardSat.Solver
import Mathlib.Algebra.Group.Nat.Defs

set_option autoImplicit false

/-! # Runs of a solver

What a caller may do with a solver, and what it may count on. A `Demand` is a constraint as it was
given. The `Ledger` of a run lists the demands in force, and the snapshots that may still be loaded,
each with the demands that were in force when it was taken; loading one drops those that are
younger. `Run` are all sequences of calls that end in an answer, under some `Rules`.

The ledger is kept by the caller, so to say: it is read off the calls, and no field of the solver is
looked at. What a solver promises is then a statement about a solver and a ledger, and the demands
of the ledger are the demands that were made, as they were made, with their repeated literals and
their bounds.

The ledger also notes one thing that no caller can see: whether a search was canceled when a
constraint was violated at the ground level.

## Rules

Most promises hold of every run. Some need that no search was canceled, some that every variable is
to be decided, and some that no literal is repeated in an at-most constraint. These are restrictions
on a run as a whole, and `Rules` collects them, so that one definition of runs serves all theorems
and each names the rules that it needs.
-/

namespace CardSat

/-! ## Demands -/

/-- A constraint as a caller gives it. -/
inductive Demand where
  | clause (lits : List Lit)
  | atMost (lits : List Lit) (bound : Nat)
  | atLeast (lits : List Lit) (bound : Nat)
  | exactly (lits : List Lit) (bound : Nat)

namespace Demand

/-- Whether a world meets a demand. -/
def holds (w : World) : Demand → Bool
  | clause lits => w.clauseHolds lits
  | atMost lits bound => w.atMostHolds lits bound
  | atLeast lits bound => w.atLeastHolds lits bound
  | exactly lits bound => w.atMostHolds lits bound && w.atLeastHolds lits bound

/-- The literals of a demand. -/
def lits : Demand → List Lit
  | clause lits => lits
  | atMost lits _ => lits
  | atLeast lits _ => lits
  | exactly lits _ => lits

/-- The literals that are counted against an upper bound are not repeated, and the bound is a
signed word. -/
def Plain : Demand → Prop
  | atMost lits bound => lits.Nodup ∧ bound < 2 ^ 63
  | exactly lits bound => lits.Nodup ∧ bound < 2 ^ 63
  | _ => True

instance : DecidablePred Plain
  | clause _ => inferInstanceAs (Decidable True)
  | atMost lits bound => inferInstanceAs (Decidable (lits.Nodup ∧ bound < 2 ^ 63))
  | atLeast _ _ => inferInstanceAs (Decidable True)
  | exactly lits bound => inferInstanceAs (Decidable (lits.Nodup ∧ bound < 2 ^ 63))

end Demand

/-- A world that meets all demands of a list. -/
def World.Meets (w : World) (ds : List Demand) : Prop := ∀ d ∈ ds, d.holds w = true

theorem World.meets_cons {w : World} {d : Demand} {ds : List Demand} :
    w.Meets (d :: ds) ↔ w.Meets ds ∧ d.holds w = true := by
  rw [Meets, List.forall_mem_cons, and_comm, Meets]

/-- Adds a demand to a solver. -/
def Solver.demand (s : Solver) : Demand → Checked (Bool × Solver)
  | .clause lits => s.addClause lits
  | .atMost lits bound => s.addAtMost lits bound
  | .atLeast lits bound => Receiver.addAtLeast s lits bound
  | .exactly lits bound => Receiver.addExactly s lits bound

/-! ## Runs -/

/-- What holds of a solver between two calls because of the calls before. -/
structure Ledger where
  /-- The demands in force. -/
  added : List Demand := []
  /-- The snapshots that may be loaded, newest first, and the demands in force at each. -/
  saved : List (Snapshot × List Demand) := []
  /-- A search was canceled at a conflict of the ground level, and nothing was loaded since. -/
  overlooked : Prop := False

/-- Restrictions on the calls of a run. -/
structure Rules where
  /-- Every variable may be decided. -/
  decisionVars : Bool := false
  /-- No literal is repeated in an at-most constraint, and its bound is a signed word. -/
  plain : Bool := false
  /-- No search is canceled. -/
  uncanceled : Bool := false

/-- The calls that do not go back. A list of literals fits into memory, so its length is a signed
word. -/
inductive Call (rules : Rules) : Solver → Ledger → Solver → Ledger → Prop
  | newVar {s s' : Solver} {L : Ledger} {v : Var} (negated decision : Bool)
      (hdecision : rules.decisionVars = true → decision = true)
      (h : s.newVar negated decision = .ok (v, s')) : Call rules s L s' L
  | add {s s' : Solver} {L : Ledger} {b : Bool} (d : Demand) (hlength : d.lits.length < 2 ^ 63)
      (hplain : rules.plain = true → d.Plain) (h : s.demand d = .ok (b, s')) :
      Call rules s L s' { L with added := d :: L.added }
  | preprocess {s s' : Solver} {L : Ledger} {b : Bool} (h : s.preprocess = .ok (b, s')) :
      Call rules s L s' L
  | solve {s s' : Solver} {L : Ledger} {σ : Type} {st st' : σ} {a : Answer} (budget : Budget)
      (assumptions : List Lit) (handler : Handler (StateM σ))
      (h : Returns (s.solve budget assumptions handler) st (a, s') st')
      (hcanceled : rules.uncanceled = true → a ≠ .canceled) :
      Call rules s L s' { L with
        overlooked := L.overlooked ∨ (a = .canceled ∧ s'.engine.Overlooks) }
  | save {s s' : Solver} {L : Ledger} {snapshot : Snapshot} (h : s.save = .ok (snapshot, s')) :
      Call rules s L s' { L with saved := (snapshot, L.added) :: L.saved }

/-- Any number of calls that do not go back. -/
inductive Calls (rules : Rules) (s : Solver) (L : Ledger) : Solver → Ledger → Prop
  | refl : Calls rules s L s L
  | call {s' s'' : Solver} {L' L'' : Ledger} (hs : Calls rules s L s' L')
      (h : Call rules s' L' s'' L'') : Calls rules s L s'' L''

/-- The solvers that can be reached, with their ledgers. -/
inductive Run (rules : Rules) : Solver → Ledger → Prop
  | new {settings : Settings} {s : Solver} (h : Solver.new settings = .ok s) : Run rules s {}
  | call {s s' : Solver} {L L' : Ledger} (hr : Run rules s L) (h : Call rules s L s' L') :
      Run rules s' L'
  | load {s s' : Solver} {L : Ledger} {snapshot : Snapshot} {added : List Demand}
      {younger older : List (Snapshot × List Demand)} (hr : Run rules s L)
      (hsaved : L.saved = younger ++ (snapshot, added) :: older)
      (h : s.load snapshot = .ok s') :
      Run rules s' ⟨added, (snapshot, added) :: older, False⟩

end CardSat
