import CardSat.Decision.Generator
import CardSat.Table.Heap
import CardSat.Trail

set_option autoImplicit false

/-! # Choosing decisions

Which literal a search decides next. Literals of an order given by the caller come first. After them
the most active unassigned decision variable is taken from a heap, or with some probability a random
one, on the side it last had. A variable may leave the heap when it is picked and comes back when
its value is taken back.

Main operations: `addVar`, `takeBack`, `bump`, `rebuild` and `pick`.

A random position of the heap is read without a test, so a position that the generator draws beyond
its end is a refused call and not a missing answer. The increment of activities grows with every
conflict, and when an activity becomes too great all of them and the increment are scaled down.
-/

namespace CardSat

/-- Which values a variable remembers as its side when they are taken back. -/
inductive PhaseSaving where
  /-- None: the variable keeps its initial side. -/
  | never
  /-- Those of the topmost level. -/
  | topLevel
  /-- All of them. -/
  | always
  deriving DecidableEq

/-- How decisions are chosen. -/
structure DecisionSettings where
  /-- The factor by which old activities lose weight. -/
  varDecay : Float := 0.95
  randomSeed : Float := 91648253.0
  /-- The probability of a random decision variable. -/
  randomFreq : Float := 0.0
  phaseSaving : PhaseSaving := .always
  /-- Whether sides are random. -/
  randomSide : Bool := false
  /-- Whether variables start with a small random activity. -/
  randomActivity : Bool := false

/-- What decisions need to know of a variable. -/
structure Choice where
  /-- The side the next decision takes. -/
  negated : Bool
  /-- Whether the variable may be decided. -/
  decision : Bool

/-- The state from which decisions are chosen. -/
structure Decisions where
  settings : DecisionSettings
  /-- What the next bump adds to an activity. -/
  increment : Float
  generator : Generator
  choices : SparseTable Choice
  activities : SparseTable Float
  queue : VarHeap
  /-- The literals that the caller wants decided first. -/
  order : Array Lit
  /-- How many of them have been passed since a value was last taken back. -/
  orderHead : Nat
  /-- The number of decision variables. -/
  decisionVars : Nat
  /-- The number of random decisions so far. -/
  randomDecisions : Nat

/-- The activity above which all activities are scaled down. -/
def varActivityLimit : Float := 1e100

/-- The factor by which activities of variables are scaled down. -/
def varActivityScale : Float := 1e-100

namespace Decisions

/-- The state without variables. -/
def empty (settings : DecisionSettings) : Checked Decisions := do
  return {
    settings
    increment := 1.0
    generator := ← Generator.ofSeed settings.randomSeed
    choices := .empty
    activities := .empty
    queue := .empty
    order := #[]
    orderHead := 0
    decisionVars := 0
    randomDecisions := 0 }

/-- The activity of a variable. -/
def activity (d : Decisions) (v : Var) : Checked Float := d.activities.fetch v.index

/-- The order of the queue: a variable is before another one if it is more active. -/
def moreActive (activities : SparseTable Float) (a b : Var) : Bool :=
  (activities.get? a.index).getD 0.0 > (activities.get? b.index).getD 0.0

/-- Puts a variable into the queue, if it is not there. -/
def enqueue (d : Decisions) (v : Var) : Decisions :=
  { d with queue := (d.queue.insert (moreActive d.activities) v).2 }

/-- Declares whether a variable may be decided. -/
def setDecision (d : Decisions) (v : Var) (b : Bool) : Checked Decisions := do
  let choice ← d.choices.fetch v.index
  if b = choice.decision then return d
  let d := { d with choices := d.choices.insert v.index { choice with decision := b } }
  if b then return { d with decisionVars := d.decisionVars + 1 }.enqueue v
  else return { d with decisionVars := d.decisionVars - 1 }

/-- Adds a variable whose first decision takes the given side. -/
def addVar (d : Decisions) (v : Var) (negated decision : Bool) : Checked Decisions :=
  let (start, generator) :=
    if d.settings.randomActivity then
      let (x, g) := d.generator.next
      (x * 0.00001, g)
    else (0.0, d.generator)
  setDecision { d with
    generator
    activities := d.activities.insert v.index start
    choices := d.choices.insert v.index ⟨negated, false⟩ } v decision

/-- Sets the literals to be decided first. -/
def setOrder (d : Decisions) (order : List Lit) : Decisions :=
  { d with order := order.toArray, orderHead := 0 }

/-- Notes that a literal was taken back, and whether from the topmost level. -/
def takeBack (d : Decisions) (l : Lit) (fromTop : Bool) : Checked Decisions := do
  let choice ← d.choices.fetch l.var.index
  let remembers := match d.settings.phaseSaving with
    | .never => false
    | .topLevel => fromTop
    | .always => true
  let choice := if remembers then { choice with negated := l.negated } else choice
  let d := { d with choices := d.choices.insert l.var.index choice, orderHead := 0 }
  return if choice.decision then d.enqueue l.var else d

/-- The most active variable of a list, the first of equals. -/
def mostActive (d : Decisions) (vars : List Var) : Checked (Option Var) := do
  let best ← vars.foldlM (fun (best : Option (Var × Float)) v => do
    let a ← d.activity v
    match best with
    | some (_, top) => return if top ≥ a then best else some (v, a)
    | none => return some (v, a)) none
  return best.map (·.1)

/-- Raises the activity of a variable. When it passes the limit, all activities and the
increment are scaled down. -/
def bump (d : Decisions) (v : Var) : Checked Decisions := do
  let raised := (← d.activity v) + d.increment
  let d := if raised > varActivityLimit then
      { d with
        increment := d.increment * varActivityScale
        activities := (d.activities.map (· * varActivityScale)).insert v.index
          (raised * varActivityScale) }
    else { d with activities := d.activities.insert v.index raised }
  return { d with queue := (d.queue.update (moreActive d.activities) v).2 }

/-- Makes later bumps weigh more. -/
def decay (d : Decisions) : Decisions :=
  { d with increment := d.increment * (1.0 / d.settings.varDecay) }

/-- Whether a variable can be decided now. -/
def eligible (d : Decisions) (t : Trail) (v : Var) : Checked Bool := do
  if ← t.isUnset v then return (← d.choices.fetch v.index).decision else return false

/-- Makes the queue anew from the unassigned decision variables. -/
def rebuild (d : Decisions) (t : Trail) : Checked Decisions := do
  let vars ← d.choices.entries.filterMapM fun (i, choice) => do
    if choice.decision then return if ← t.isUnset ⟨i⟩ then some (⟨i⟩ : Var) else none
    else return none
  return { d with queue := VarHeap.ofArray (moreActive d.activities) vars.toArray }

/-- Forgets the variables from number `n` on. -/
def truncateVars (d : Decisions) (n : Nat) (t : Trail) : Checked Decisions :=
  let choices := d.choices.truncate n
  rebuild { d with
    choices
    activities := d.activities.truncate n
    decisionVars := choices.entries.countP (·.2.decision)
    order := d.order.filter fun l => l.var.index < n
    orderHead := 0 } t

/-! ## Picking -/

/-- The first eligible literal among the last `n` of the caller's order, passing those before
it. -/
def pickOrdered (t : Trail) : (n : Nat) → Decisions → Checked (Option Lit × Decisions)
  | 0, d => return (none, d)
  | n + 1, d =>
    match d.order[d.orderHead]? with
    | none => return (none, d)
    | some l => do
      let d := { d with orderHead := d.orderHead + 1 }
      if ← d.eligible t l.var then return (some l, d) else pickOrdered t n d

/-- Takes variables from the queue, at most `n`, until one is eligible. -/
def pickActive (t : Trail) : (n : Nat) → Decisions → Checked (Option Var × Decisions)
  | 0, d => return (none, d)
  | n + 1, d =>
    match d.queue.pop (moreActive d.activities) with
    | (none, queue) => return (none, { d with queue })
    | (some v, queue) => do
      let d := { d with queue }
      if ← d.eligible t v then return (some v, d) else pickActive t n d

/-- A random variable of the queue, with the probability of the settings. -/
def pickRandom (d : Decisions) (t : Trail) : Checked (Option Var × Decisions) := do
  let (yes, generator) := d.generator.chance d.settings.randomFreq
  let d := { d with generator }
  if yes && !d.queue.isEmpty then
    let (i, generator) := d.generator.below d.queue.size
    let d := { d with generator }
    let v ← fetch d.queue.items i
    if ← d.eligible t v then
      return (some v, { d with randomDecisions := d.randomDecisions + 1 })
    else return (none, d)
  else return (none, d)

/-- The variable to be decided next; none if every decision variable has a value. -/
def pickVar (d : Decisions) (t : Trail) : Checked (Option Var × Decisions) := do
  match ← d.pickRandom t with
  | (some v, d) => return (some v, d)
  | (none, d) => pickActive t d.queue.size d

/-- The literal to be decided next; none if every decision variable has a value. -/
def pick (d : Decisions) (t : Trail) : Checked (Option Lit × Decisions) := do
  match ← pickOrdered t (d.order.size - d.orderHead) d with
  | (some l, d) => return (some l, d)
  | (none, d) =>
    match ← d.pickVar t with
    | (none, d) => return (none, d)
    | (some v, d) =>
      if d.settings.randomSide then
        let (negated, generator) := d.generator.chance 0.5
        return (some (v.lit negated), { d with generator })
      else return (some (v.lit (← d.choices.fetch v.index).negated), d)

end Decisions

end CardSat
