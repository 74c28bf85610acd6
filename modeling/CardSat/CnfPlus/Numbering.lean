import CardSat.CnfPlus.Reader
import CardSat.Receiver
import CardSat.Table.Sparse

set_option autoImplicit false

/-! # Numbering variables

The ids of a text are numbered from one, a receiver's variables in its own way. Ids are mapped
in ascending order, each to a variable made for it, as soon as a statement uses that id or a
greater one. `receive` passes the statements of a text on to a receiver.
-/

namespace CardSat

namespace CnfPlus

/-- The ids of variables. -/
abbrev IdTable := SparseTable Int

/-- The variables of the ids from one on, and the other way round. -/
structure Numbering where
  vars : Array Var := #[]
  ids : IdTable := .empty

namespace Numbering

variable {σ : Type} [Receiver σ]

/-- Makes variables for the next `n` ids. -/
def extend : (n : Nat) → Numbering → σ → Checked (Numbering × σ)
  | 0, m, s => return (m, s)
  | n + 1, m, s => do
    let (v, s) ← Receiver.newVar s false true
    extend n ⟨m.vars.push v, m.ids.insert v.index (m.vars.size + 1)⟩ s

/-- The literal of an id. -/
def lit (m : Numbering) (s : σ) (id : Int) : Checked (Lit × Numbering × σ) := do
  let (m, s) ← extend (id.natAbs - m.vars.size) m s
  return ((← fetch m.vars (id.natAbs - 1)).lit (id < 0), m, s)

/-- The literals of some ids, after those already `done`. -/
def lits : (ids : List Int) → (done : Array Lit) → Numbering → σ →
    Checked (List Lit × Numbering × σ)
  | [], done, m, s => return (done.toList, m, s)
  | id :: rest, done, m, s => do
    let (l, m, s) ← m.lit s id
    lits rest (done.push l) m s

/-- Passes a statement on. -/
def add (m : Numbering) (s : σ) (st : Statement) : Checked (Numbering × σ) := do
  let (ls, m, s) ← lits st.ids #[] m s
  let (_, s) ← match st with
    | .clause _ => Receiver.addClause s ls
    | .atMost _ k => Receiver.addAtMost s ls k
    | .atLeast _ k => Receiver.addAtLeast s ls k
  return (m, s)

end Numbering

/-- Passes the statements of a text on to a receiver, up to the first error of the text. The
answer gives the ids of the variables made for it. -/
def receive {σ : Type} [Receiver σ] (r : Reading) (s : σ) :
    Checked (Except ReadError IdTable × σ) := do
  let (m, s) ← r.statements.foldlM (fun (m, s) st => Numbering.add m s st) (({} : Numbering), s)
  return (r.outcome.map fun _ => m.ids, s)

end CnfPlus

end CardSat
