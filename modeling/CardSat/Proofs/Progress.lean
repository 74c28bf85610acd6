import CardSat.Proofs.Engine.Course
import CardSat.Proofs.Ledger.Demands
import CardSat.Proofs.Restart
import CardSat.Proofs.Sorting

set_option autoImplicit false

/-! # Restarts and conflicts

An interval ends in a restart once the counter of conflicts has reached a limit, its value at the
beginning plus the length of the interval, as a machine word. So a restart costs a conflict exactly
where that sum is above the counter. The sum is not above it in two cases: the length is cut to
zero, which happens to first lengths below one, or the sum exceeds the machine word
(`lt_conflictLimit_iff`). Apart from these, `n` restarts cost at least `n` conflicts.

The two cases are conditions on the interval that is about to begin, so they are stated at the place
in the run where it begins, and the run lemma asks for them at each restart. With a first length of
at least one the first of them never occurs, since every length of the sequence is the first length
times a power that is at least one.
-/

namespace CardSat

namespace Engine

variable {task : Task} {limit rounds : Nat} {e e' e₁ : Engine} {k : Effort} {p : Pause}

/-! ## The limit -/

/-- The limit is above the counter unless the length is zero or the sum exceeds the machine word. -/
theorem lt_conflictLimit_iff {length : UInt64} (hword : e.conflicts < UInt64.size) :
    e.conflicts < e.conflictLimit length ↔
      length ≠ 0 ∧ e.conflicts + length.toNat < UInt64.size := by
  have hlt := length.toNat_lt_size
  have hzero : length ≠ 0 ↔ length.toNat ≠ 0 := UInt64.toNat_inj.not.symm
  rw [conflictLimit, hzero]
  by_cases hfit : e.conflicts + length.toNat < UInt64.size
  · rw [Nat.mod_eq_of_lt hfit]
    omega
  · have hwrap : (e.conflicts + length.toNat) % UInt64.size =
        e.conflicts + length.toNat - UInt64.size := by
      rw [Nat.mod_eq_sub_mod (by omega), Nat.mod_eq_of_lt (by omega)]
    rw [hwrap]
    omega

/-! ## What an interval that returns went through -/

/-- The counter of the engine counts the conflicts of the last round too. -/
theorem Ends.conflicts_eq {o : Option Answer} (h : Ends task e k o e') :
    e'.conflicts = e.conflicts + k.conflicts := by
  cases h with
  | restart hprop hcancel =>
      exact (conflicts_of_cancelUntil hcancel).trans (conflicts_of_propagate hprop)
  | interrupted hprop hcancel =>
      exact (conflicts_of_cancelUntil hcancel).trans (conflicts_of_propagate hprop)
  | failed hprop hsimp hred hchoose => exact conflicts_of_choose hprop hsimp hred hchoose
  | complete hprop hsimp hred hchoose => exact conflicts_of_choose hprop hsimp hred hchoose
  | refuted hprop hlearn =>
      rw [conflicts_of_learnFrom hlearn]
      exact congrArg (· + 1) (conflicts_of_propagate hprop)
  | canceled hprop => exact congrArg (· + 1) (conflicts_of_propagate hprop)

/-- A stretch that returns goes through rounds without conflicts. It restarts where the conflicts
have reached the limit. -/
theorem course_of_stretch : ∀ {rounds : Nat} {k : Effort} {e₁ : Engine}, Course task e k e₁ →
    e₁.stretch task limit rounds = .ok (p, e') →
    ∃ k' e₂, Course task e k' e₂ ∧ Stops task e₂ e' p ∧
      (p = .restart → limit ≤ e.conflicts + k'.conflicts) := by
  intro rounds
  induction rounds with
  | zero => exact fun _ h => absurd h stretch_zero_ne_ok
  | succ rounds ih =>
      intro k e₁ hc h
      cases turn_of_stretch h with
      | conflict hprop => exact ⟨k, e₁, hc, ⟨_, hprop, rfl⟩, by simp⟩
      | interrupted hprop hcancel =>
          exact ⟨k, e₁, hc, ⟨_, .interrupted hprop hcancel⟩, by simp⟩
      | restart hprop hlimit hcancel =>
          refine ⟨k, e₁, hc, ⟨_, .restart hprop hcancel⟩, fun _ => ?_⟩
          rwa [← hc.conflicts_eq, ← conflicts_of_propagate hprop]
      | failed hprop hsimp hred hchoose =>
          exact ⟨k, e₁, hc, ⟨_, .failed hprop hsimp hred hchoose⟩, by simp⟩
      | complete hprop hsimp hred hchoose =>
          exact ⟨k, e₁, hc, ⟨_, .complete hprop hsimp hred hchoose⟩, by simp⟩
      | decide hprop hsimp hred hchoose hdecide hrest =>
          exact ih (hc.decide hprop hsimp hred hchoose hdecide) hrest

section

variable {σ : Type} {st st' : σ} {handler : Handler (StateM σ)} {o : Option Answer}

/-- An interval that returns goes through rounds and ends. Each conflict on the way has been learnt
from, and without an answer they have reached the limit. -/
theorem course_of_interval : ∀ {rounds : Nat} {k : Effort} {e₁ : Engine} {st : σ},
    Course task e k e₁ → Returns (e₁.interval task handler limit rounds) st (o, e') st' →
    ∃ k₁ e₂ k₂, Course task e k₁ e₂ ∧ Ends task e₂ k₂ o e' ∧
      (o = none → limit ≤ e.conflicts + k₁.conflicts) := by
  intro rounds
  induction rounds with
  | zero => exact fun _ h => absurd h returns_throw
  | succ rounds ih =>
      intro k e₁ st hc h
      cases lap_of_interval h with
      | restart hstretch =>
          obtain ⟨k', e₂, hc', ⟨k₂, hends⟩, hlimit⟩ := course_of_stretch hc hstretch
          exact ⟨k', e₂, k₂, hc', hends, fun _ => hlimit rfl⟩
      | answer hstretch =>
          obtain ⟨k', e₂, hc', ⟨k₂, hends⟩, -⟩ := course_of_stretch hc hstretch
          exact ⟨k', e₂, k₂, hc', hends, by simp⟩
      | canceled hstretch =>
          obtain ⟨k', e₂, hc', ⟨e₃, hprop, rfl⟩, -⟩ := course_of_stretch hc hstretch
          exact ⟨k', e₂, _, hc', .canceled hprop, by simp⟩
      | refuted hstretch hlearn =>
          obtain ⟨k', e₂, hc', ⟨e₃, hprop, rfl⟩, -⟩ := course_of_stretch hc hstretch
          exact ⟨k', e₂, _, hc', .refuted hprop hlearn, by simp⟩
      | learn hstretch hlearn hrest =>
          obtain ⟨k', e₂, hc', ⟨e₃, hprop, rfl⟩, -⟩ := course_of_stretch hc hstretch
          exact ih (hc'.learn hprop hlearn) hrest

/-- An interval that restarts went through conflicts up to the limit. -/
theorem restart_of_interval
    (h : Returns (e.interval task handler limit rounds) st (none, e') st') :
    ∃ k e₁, Course task e k e₁ ∧ Ends task e₁ {} none e' ∧
      e'.conflicts = e.conflicts + k.conflicts ∧ limit ≤ e'.conflicts := by
  obtain ⟨k, e₁, k₂, hc, hends, hlimit⟩ := course_of_interval .start h
  cases hends with
  | restart hprop hcancel =>
      have hends : Ends task e₁ {} none e' := .restart hprop hcancel
      have hcount : e'.conflicts = e.conflicts + k.conflicts := by
        rw [hends.conflicts_eq, hc.conflicts_eq, Nat.add_zero]
      exact ⟨k, e₁, hc, hends, hcount, hcount ▸ hlimit rfl⟩

/-! ## Restart after restart -/

/-- The states in which the intervals of a search begin, with the number of restarts so far. -/
inductive Restarts (task : Task) (handler : Handler (StateM σ)) (e : Engine) (st : σ) :
    Nat → Engine → σ → Prop
  | none : Restarts task handler e st 0 e st
  | restart {n : Nat} {e₁ e₂ : Engine} {st₁ st₂ : σ} {length : UInt64}
      (hr : Restarts task handler e st n e₁ st₁) (hlength : task.restart.interval n = .ok length)
      (hinterval : Returns (interval task handler (e₁.conflictLimit length)
        (Nat.pow 3 e₁.trail.varCount + 1) { e₁ with starts := e₁.starts + 1 }) st₁ (.none, e₂) st₂) :
      Restarts task handler e st (n + 1) e₂ st₂

/-- As long as no interval has length zero and the counter stays below the machine word by more than
any length so far, each restart costs a conflict. -/
theorem Restarts.conflicts_add_le {n : Nat} {st₁ : σ} (h : Restarts task handler e st n e₁ st₁)
    (hlength : ∀ m < n, ∀ length, task.restart.interval m = .ok length →
      length ≠ 0 ∧ e₁.conflicts + length.toNat < UInt64.size) :
    e.conflicts + n ≤ e₁.conflicts := by
  induction h with
  | none => exact Nat.le_refl _
  | @restart n e₁ e₂ st₁ st₂ length hr hn hinterval ih =>
      obtain ⟨k, -, -, -, hcount, hlimit⟩ := restart_of_interval hinterval
      dsimp only at hcount
      obtain ⟨hpos, hfit⟩ := hlength n (Nat.lt_succ_self n) length hn
      have hmore : e₁.conflicts < e₁.conflictLimit length :=
        (lt_conflictLimit_iff (by omega)).2 ⟨hpos, by omega⟩
      have hbefore := ih fun m hm length h => by
        obtain ⟨hpos, hfit⟩ := hlength m (Nat.lt_succ_of_lt hm) length h
        exact ⟨hpos, by omega⟩
      omega

end

end Engine

/-! ## Restart settings -/

open Engine

/-- Whatever handler accompanies it, an interval of some length that ends in a restart has learnt
from new conflicts up to its limit, and from at least one if the limit was above the counter. -/
def Engine.Paced (e : Engine) (length : UInt64) : Prop :=
  ∀ (σ : Type) (task : Task) (handler : Handler (StateM σ)) (rounds : Nat) (st st' : σ) (e' : Engine),
    Returns (e.interval task handler (e.conflictLimit length) rounds) st (none, e') st' →
    ∃ k e₁, Course task e k e₁ ∧ Ends task e₁ {} none e' ∧
      e'.conflicts = e.conflicts + k.conflicts ∧ e.conflictLimit length ≤ e'.conflicts ∧
      (e.conflicts < e.conflictLimit length → 1 ≤ k.conflicts)

theorem Engine.paced (e : Engine) (length : UInt64) : e.Paced length := by
  intro σ task handler rounds st st' e' h
  obtain ⟨k, e₁, hc, hends, hcount, hlimit⟩ := restart_of_interval h
  exact ⟨k, e₁, hc, hends, hcount, hlimit, fun hmore => by omega⟩

/-- Where the factor exceeds one, every restart number below `2 ^ 31` gives an interval its length,
the first length times a power that is at least one. It is zero exactly if this product is below
one, which a first length of one or more excludes. The limit of the interval is above the counter of
conflicts exactly if the length is not zero and the sum fits the machine word, and a restart has then
cost a conflict. From a first length of one on, `n` restarts cost at least `n` conflicts as long as
no such sum exceeds the machine word. -/
theorem conflicts_of_restarts {s : RestartStrategy} (hinc : 1.0 < s.inc) :
    (∀ n < 2 ^ 31, ∃ k, ∃ length : UInt64, s.Exponent n k ∧ s.interval n = .ok length ∧
      length = (power s.inc k * s.first).toUInt64 ∧ 1.0 ≤ power s.inc k ∧
      (length ≠ 0 ↔ 1.0 ≤ power s.inc k * s.first) ∧ (1.0 ≤ s.first → length ≠ 0) ∧
      ∀ e : Engine, e.conflicts < UInt64.size → e.Paced length ∧
        (e.conflicts < e.conflictLimit length ↔
          length ≠ 0 ∧ e.conflicts + length.toNat < UInt64.size)) ∧
    ∀ (σ : Type) (task : Task) (handler : Handler (StateM σ)) (e e' : Engine) (st st' : σ) (n : Nat),
      task.restart = s → 1.0 ≤ s.first → n ≤ 2 ^ 31 → Restarts task handler e st n e' st' →
      (∀ m < n, ∀ length, s.interval m = .ok length →
        e'.conflicts + length.toNat < UInt64.size) → e.conflicts + n ≤ e'.conflicts := by
  have hbase : ∀ k : Nat, 1.0 ≤ power s.inc k := one_le_power (float_le_of_lt hinc)
  -- no interval is empty if the first one is not
  have hnonzero : ∀ k : Nat, 1.0 ≤ s.first → (power s.inc k * s.first).toUInt64 ≠ 0 :=
    fun k hone => toUInt64_ne_zero_iff.2 (one_le_mul_float (hbase k) hone)
  refine ⟨fun n hn => ?_, fun σ task handler e e' st st' n htask hone hn hr hfit => ?_⟩
  · obtain ⟨k, hk⟩ := exists_exponent s hn
    exact ⟨k, _, hk, interval_of_exponent hk hn, rfl, hbase k, toUInt64_ne_zero_iff, hnonzero k,
      fun e hword => ⟨e.paced _, lt_conflictLimit_iff hword⟩⟩
  · refine hr.conflicts_add_le fun m hm length hlength => ?_
    rw [htask] at hlength
    obtain ⟨k, hk⟩ := exists_exponent s (show m < 2 ^ 31 by omega)
    have heq := Except.ok.inj ((interval_of_exponent hk (by omega)).symm.trans hlength)
    exact ⟨heq ▸ hnonzero k hone, hfit m hm length hlength⟩

/-- A first length below one is no length at all until the factor has made up for it. -/
example : (({ first := 0.5 } : RestartStrategy).interval 1).toOption = some 0 ∧
    (({ first := 0.5 } : RestartStrategy).interval 2).toOption = some 1 := by
  decide +kernel

/-- The first interval after a start of the engine. -/
def Engine.firstInterval (e : Engine) (s : RestartStrategy) : Checked (Option Answer × Engine) := do
  let length ← s.interval 0
  ((interval (e.order s {} []) (Handler.none : Handler (StateM Unit)) (e.conflictLimit length)
    (Nat.pow 3 e.trail.varCount + 1) { e with starts := e.starts + 1 }).run.run ()).1

open Lit in
/-- Two clauses make the first decision fail, and an interval of length one then restarts. -/
theorem restart_after_conflict : ∃ (s : Solver) (length : UInt64) (e : Engine),
    let strategy : RestartStrategy := { first := 1.0 }
    let task := s.engine.order strategy {} []
    1.0 < strategy.inc ∧ 1.0 ≤ strategy.first ∧ strategy.interval 0 = .ok length ∧
      s.engine.conflicts < s.engine.conflictLimit length ∧
      Restarts task (Handler.none : Handler (StateM Unit)) s.engine () 1 e () ∧
      s.engine.conflicts + 1 ≤ e.conflicts ∧
      ∃ k e₁, Course task { s.engine with starts := s.engine.starts + 1 } k e₁ ∧
        Ends task e₁ {} none e ∧ 1 ≤ k.conflicts := by
  have hpass : ((Solver.ofDemands 2 [.clause [x0.neg, x1], .clause [x0.neg, x1.neg]] >>= fun s =>
      s.engine.firstInterval { first := 1.0 } >>= fun x => return (s, x)).toOption.any fun x =>
        x.2.1.isNone && x.1.engine.conflicts == 0 && x.2.2.conflicts == 1) = true := by
    simp (disch := decide) only [Solver.ofDemands, Solver.addDemands, Solver.demand,
      Solver.addClause, Engine.addClause, Engine.addReduced, Lit.sortDistinct_of_pairwise]
    decide +kernel
  obtain ⟨s, ⟨s', o, e⟩, -, h, htest⟩ := exists_run_of_test hpass (by decide) (by decide)
  simp only [firstInterval, bind_eq_ok, pure_eq_ok, Prod.mk.injEq] at h
  obtain ⟨⟨o, e⟩, ⟨length, hlength, hinterval⟩, rfl, rfl, rfl⟩ := h
  simp only [Bool.and_eq_true, Option.isNone_iff_eq_none, beq_iff_eq] at htest
  obtain ⟨⟨rfl, hzero⟩, hone⟩ := htest
  have hinc : 1.0 < ({ first := 1.0 } : RestartStrategy).inc := by decide
  have hfirst : 1.0 ≤ ({ first := 1.0 } : RestartStrategy).first := by decide
  have hreturns : Returns (interval (s.engine.order { first := 1.0 } {} [])
      (Handler.none : Handler (StateM Unit)) (s.engine.conflictLimit length)
      (Nat.pow 3 s.engine.trail.varCount + 1) { s.engine with starts := s.engine.starts + 1 }) ()
      (none, e) () := Prod.ext hinterval rfl
  have hrestarts : Restarts (s.engine.order { first := 1.0 } {} [])
      (Handler.none : Handler (StateM Unit)) s.engine () 1 e () :=
    .restart .none hlength hreturns
  -- the first interval is one conflict long
  have hlen : length = 1 := by
    have : (({ first := 1.0 } : RestartStrategy).interval 0).toOption = some 1 := by
      decide +kernel
    rw [hlength] at this
    exact Option.some.inj this
  obtain ⟨hlengths, hruns⟩ := conflicts_of_restarts hinc
  obtain ⟨_, length', -, hlength', -, -, -, hnonzero, hroom⟩ := hlengths 0 (by decide)
  obtain rfl := Except.ok.inj (hlength.symm.trans hlength')
  have hmore : s.engine.conflicts < s.engine.conflictLimit length :=
    (hroom s.engine (by rw [hzero]; decide)).2.2 ⟨hnonzero hfirst, by rw [hzero, hlen]; decide⟩
  obtain ⟨k, e₁, hc, hends, -, -, hpos⟩ :=
    (hroom { s.engine with starts := s.engine.starts + 1 } (by dsimp only; rw [hzero]; decide)).1
      _ _ _ _ _ _ _ hreturns
  refine ⟨s, length, e, hinc, hfirst, hlength, hmore, hrestarts, ?_, k, e₁, hc, hends, hpos hmore⟩
  refine hruns _ _ _ _ _ _ _ 1 rfl hfirst (by decide) hrestarts fun m hm length' hlength' => ?_
  obtain rfl : m = 0 := by omega
  obtain rfl := Except.ok.inj (hlength.symm.trans hlength')
  rw [hone, hlen]
  decide

end CardSat
