import CardSat.Proofs.Checked
import CardSat.Proofs.Sorting
import CardSat.Receiver

set_option autoImplicit false

/-! # Cardinality constraints that a receiver is not asked for

A receiver is only asked for clauses and at-most constraints (`Request`). If it takes them for what
they say (`Lawful`), at-least and exact bounds mean what they say, too.

That at least `bound` literals are true is a single request. `lowerBound` is that request, and
`holds_lowerBound` the identity behind it: of the distinct literals of a list, those that are false
are the complements that are true. A list may repeat literals and contain complements; only
`Lit.sortDistinct` is counted.

A solver is one receiver, and one that only keeps a record of what it is asked for is another
(`Receiver.Record`). What is shown here is shown of all of them, with a relation between receivers
and worlds that the receiver's own meaning is to fill in.
-/

namespace CardSat

namespace Receiver

/-- A constraint that a receiver is asked to add. -/
inductive Request where
  | clause (lits : List Lit)
  | atMost (lits : List Lit) (bound : Nat)
  deriving DecidableEq

namespace Request

/-- Whether a world meets a request. -/
def holds (w : World) : Request → Bool
  | clause lits => w.clauseHolds lits
  | atMost lits bound => w.atMostHolds lits bound

/-- The literals of a request. -/
def lits : Request → List Lit
  | clause lits | atMost lits _ => lits

variable {σ : Type} [Receiver σ]

/-- Asks a receiver to add a constraint. -/
def make (s : σ) : Request → Checked (Bool × σ)
  | clause lits => addClause s lits
  | atMost lits bound => addAtMost s lits bound

/-- Makes requests in order, as long as the answers are true. -/
def makeAll : List Request → σ → Checked (Bool × σ)
  | [], s => return (true, s)
  | q :: rest, s => do
    match ← q.make s with
    | (true, s) => makeAll rest s
    | (false, s) => return (false, s)

theorem makeAll_singleton (q : Request) (s : σ) : makeAll [q] s = q.make s := by
  cases h : q.make s with
  | error e => simp [makeAll, h, bind, Except.bind]
  | ok x =>
    obtain ⟨_ | _, s'⟩ := x <;> simp [makeAll, h, ok_bind] <;> rfl

end Request

/-- The lower bound is only asked for after the upper one has been taken. -/
theorem addExactly_eq_ok {σ : Type} [Receiver σ] {s s' : σ} {lits : List Lit} {bound : Nat}
    {b : Bool} : addExactly s lits bound = .ok (b, s') ↔
      (∃ s₁, addAtMost s lits bound = .ok (true, s₁) ∧ addAtLeast s₁ lits bound = .ok (b, s')) ∨
        addAtMost s lits bound = .ok (false, s') ∧ b = false := by
  rw [addExactly, bind_eq_ok]
  constructor
  · rintro ⟨⟨answer, s₁⟩, hupper, h⟩
    cases answer with
    | true => exact .inl ⟨s₁, hupper, h⟩
    | false =>
      obtain ⟨rfl, rfl⟩ := Prod.mk.inj (pure_eq_ok.1 h)
      exact .inr ⟨hupper, rfl⟩
  · rintro (⟨s₁, hupper, hlower⟩ | ⟨hupper, rfl⟩)
    · exact ⟨(true, s₁), hupper, hlower⟩
    · exact ⟨(false, s'), hupper, rfl⟩

/-! ## The requests behind a cardinality constraint -/

/-- At least `bound` literals of a list are true. -/
def lowerBound (lits : List Lit) (bound : Nat) : Request :=
  if bound > (Lit.sortDistinct lits).length then .clause []
  else .atMost ((Lit.sortDistinct lits).map Lit.neg) ((Lit.sortDistinct lits).length - bound)

theorem holds_lowerBound (w : World) (lits : List Lit) (bound : Nat) :
    (lowerBound lits bound).holds w = w.atLeastHolds lits bound := by
  rw [lowerBound]
  split
  next hgt =>
    -- there are not so many literals, and no world satisfies the empty clause
    rw [World.atLeastHolds_of_lt hgt]
    rfl
  next hle => exact (Bool.eq_iff_iff.2 (World.atLeastHolds_iff (Nat.le_of_not_lt hle))).symm

/-- The request is about complements of the list. -/
theorem neg_mem_of_mem_lowerBound {lits : List Lit} {bound : Nat} {l : Lit}
    (h : l ∈ (lowerBound lits bound).lits) : l.neg ∈ lits := by
  rw [lowerBound] at h
  split at h
  next => exact absurd h List.not_mem_nil
  next =>
    obtain ⟨x, hx, rfl⟩ := List.mem_map.1 h
    rw [Lit.neg_neg]
    exact Lit.mem_sortDistinct.1 hx

section

variable {σ : Type}

theorem addAtLeast_eq_make [Receiver σ] (s : σ) (lits : List Lit) (bound : Nat) :
    addAtLeast s lits bound = (lowerBound lits bound).make s := by
  simp only [addAtLeast, lowerBound]
  split <;> rfl

theorem addExactly_eq_makeAll [Receiver σ] (s : σ) (lits : List Lit) (bound : Nat) :
    addExactly s lits bound =
      Request.makeAll [.atMost lits bound, lowerBound lits bound] s := by
  rw [addExactly, Request.makeAll]
  simp only [Request.makeAll_singleton, addAtLeast_eq_make]
  rfl

/-! ## Receivers that take requests for what they say -/

/-- What an answer says about a condition that was added: if it is true, the condition has been
imposed on the worlds that were admitted; if it is false, none of them meets it. -/
structure Imposes (admits : σ → World → Prop) (condition : World → Prop) (s : σ) (b : Bool)
    (s' : σ) : Prop where
  imposed : b = true → ∀ w, admits s' w ↔ admits s w ∧ condition w
  refuted : b = false → ∀ w, admits s w → ¬ condition w

/-- A receiver that takes requests for what they say. -/
def Lawful [Receiver σ] (admits : σ → World → Prop) : Prop :=
  ∀ (q : Request) (s : σ) (b : Bool) (s' : σ), q.make s = .ok (b, s') →
    Imposes admits (fun w => q.holds w = true) s b s'

variable {admits : σ → World → Prop} {p q : World → Prop} {s s' s'' : σ} {b : Bool}

theorem Imposes.congr (h : Imposes admits p s b s') (hpq : ∀ w, p w ↔ q w) :
    Imposes admits q s b s' :=
  ⟨fun hb w => (h.imposed hb w).trans (and_congr_right fun _ => hpq w),
    fun hb w hs hq => h.refuted hb w hs ((hpq w).2 hq)⟩

theorem Imposes.and (h : Imposes admits p s true s') (h' : Imposes admits q s' b s'') :
    Imposes admits (fun w => p w ∧ q w) s b s'' := by
  constructor
  · intro hb w
    rw [h'.imposed hb w, h.imposed rfl w, and_assoc]
  · intro hb w hs hpq
    exact h'.refuted hb w ((h.imposed rfl w).2 ⟨hs, hpq.1⟩) hpq.2

theorem Imposes.and_of_false (h : Imposes admits p s false s') :
    Imposes admits (fun w => p w ∧ q w) s false s' :=
  ⟨Bool.noConfusion, fun _ w hs hpq => h.refuted rfl w hs hpq.1⟩

/-- Requests that are made in order impose all they say. -/
theorem imposes_of_makeAll [Receiver σ] (hlawful : Lawful admits) {qs : List Request}
    (h : Request.makeAll qs s = .ok (b, s')) :
    Imposes admits (fun w => ∀ q ∈ qs, q.holds w = true) s b s' := by
  induction qs generalizing s with
  | nil =>
    rw [Request.makeAll, pure_eq_ok, Prod.mk.injEq] at h
    obtain ⟨rfl, rfl⟩ := h
    exact ⟨fun _ w => by simp, Bool.noConfusion⟩
  | cons q rest ih =>
    rw [Request.makeAll, bind_eq_ok] at h
    obtain ⟨⟨answer, s₁⟩, hq, h⟩ := h
    have hfirst := hlawful q s answer s₁ hq
    cases answer with
    | true => exact (hfirst.and (ih h)).congr fun w => by rw [List.forall_mem_cons]
    | false =>
      obtain ⟨rfl, rfl⟩ := Prod.mk.inj (pure_eq_ok.1 h)
      refine (hfirst.and_of_false (q := fun w => ∀ q ∈ rest, q.holds w = true)).congr fun w => ?_
      rw [List.forall_mem_cons]

/-- With a receiver that takes clauses and at-most constraints for what they say, at-least and
exact bounds mean what they say, for every list of literals and every bound. Which requests are
made does not depend on the receiver. -/
theorem imposes_of_bounds [Receiver σ] (hlawful : Lawful admits) (lits : List Lit) (bound : Nat) :
    ∃ q : Request, (∀ l ∈ q.lits, l.neg ∈ lits) ∧
      (∀ w, q.holds w = true ↔ bound ≤ w.count lits) ∧
      (∀ s : σ, addAtLeast s lits bound = q.make s) ∧
      (∀ s : σ, addExactly s lits bound = Request.makeAll [.atMost lits bound, q] s) ∧
      (∀ (s : σ) (b : Bool) (s' : σ), addAtLeast s lits bound = .ok (b, s') →
        Imposes admits (fun w => bound ≤ w.count lits) s b s') ∧
      (∀ (s : σ) (b : Bool) (s' : σ), addExactly s lits bound = .ok (b, s') →
        Imposes admits (fun w => w.count lits = bound) s b s') := by
  have hlower : ∀ w, (lowerBound lits bound).holds w = true ↔ bound ≤ w.count lits := fun w => by
    rw [holds_lowerBound, World.atLeastHolds, decide_eq_true_iff]
  have hupper : ∀ w, (Request.atMost lits bound).holds w = true ↔ w.count lits ≤ bound :=
    fun w => by rw [Request.holds, World.atMostHolds, decide_eq_true_iff]
  refine ⟨lowerBound lits bound, fun l hl => neg_mem_of_mem_lowerBound hl, hlower,
    fun s => addAtLeast_eq_make s lits bound, fun s => addExactly_eq_makeAll s lits bound, ?_, ?_⟩
  · intro s b s' h
    rw [addAtLeast_eq_make] at h
    exact (hlawful _ _ _ _ h).congr hlower
  · intro s b s' h
    rw [addExactly_eq_makeAll] at h
    refine (imposes_of_makeAll hlawful h).congr fun w => ?_
    rw [List.forall_mem_cons, List.forall_mem_singleton, hlower, hupper]
    omega

end

/-! ## A receiver that writes down what it is asked -/

/-- The variables that were made, and the requests in order. -/
structure Record where
  vars : Nat := 0
  requests : List Request := []
  deriving DecidableEq

/-- The empty clause is refused, anything else is only written down. -/
instance : Receiver Record where
  newVar r _ _ := .ok (⟨r.vars⟩, { r with vars := r.vars + 1 })
  addClause r lits := .ok (!lits.isEmpty, { r with requests := r.requests ++ [.clause lits] })
  addAtMost r lits bound := .ok (true, { r with requests := r.requests ++ [.atMost lits bound] })

/-- The worlds that meet all that was written down. -/
def Record.admits (r : Record) (w : World) : Prop := ∀ q ∈ r.requests, q.holds w = true

theorem Record.lawful : Lawful Record.admits := by
  have happend : ∀ (r : Record) (q : Request) (w : World),
      Record.admits { r with requests := r.requests ++ [q] } w ↔
        r.admits w ∧ q.holds w = true := fun r q w => by
    simp [Record.admits, or_imp, forall_and]
  rintro (lits | ⟨lits, bound⟩) s b s' h
  · obtain ⟨rfl, rfl⟩ := Prod.mk.inj (Except.ok.inj h)
    refine ⟨fun _ => happend s _, fun hb w _ => ?_⟩
    obtain rfl : lits = [] := by simpa using hb
    exact Bool.false_ne_true
  · obtain ⟨rfl, rfl⟩ := Prod.mk.inj (Except.ok.inj h)
    exact ⟨fun _ => happend s _, Bool.noConfusion⟩

/-- A list with a repeated literal and a complementary pair. Exactly two of its literals are true
when the first variable is. -/
def sampleLits : List Lit := [⟨⟨0⟩, false⟩, ⟨⟨0⟩, false⟩, ⟨⟨1⟩, true⟩, ⟨⟨1⟩, false⟩]

theorem addExactly_record : addExactly ({} : Record) sampleLits 2 = .ok (true, ⟨0,
    [.atMost sampleLits 2, .atMost [⟨⟨0⟩, true⟩, ⟨⟨1⟩, true⟩, ⟨⟨1⟩, false⟩] 1]⟩) := by
  have hdistinct : Lit.sortDistinct sampleLits =
      [⟨⟨0⟩, false⟩, ⟨⟨1⟩, false⟩, ⟨⟨1⟩, true⟩] := by
    rw [Lit.sortDistinct, Lit.sort_eq_insertionSort]
    decide
  rw [addExactly_eq_makeAll, lowerBound, hdistinct]
  rfl

theorem imposes_of_record :
    (∃ r, addExactly ({} : Record) sampleLits 2 = .ok (true, r)) ∧
    Lawful Record.admits ∧ ∃ q : Request, (∀ l ∈ q.lits, l.neg ∈ sampleLits) ∧
      (∀ w, q.holds w = true ↔ 2 ≤ w.count sampleLits) ∧
      (∀ s : Record, addAtLeast s sampleLits 2 = q.make s) ∧
      (∀ s : Record, addExactly s sampleLits 2 = Request.makeAll [.atMost sampleLits 2, q] s) ∧
      (∀ (s : Record) (b : Bool) (s' : Record), addAtLeast s sampleLits 2 = .ok (b, s') →
        Imposes Record.admits (fun w => 2 ≤ w.count sampleLits) s b s') ∧
      (∀ (s : Record) (b : Bool) (s' : Record), addExactly s sampleLits 2 = .ok (b, s') →
        Imposes Record.admits (fun w => w.count sampleLits = 2) s b s') :=
  ⟨⟨_, addExactly_record⟩, Record.lawful, imposes_of_bounds Record.lawful sampleLits 2⟩

end Receiver

end CardSat
