import CardSat.Proofs.Ledger.Calling
import CardSat.Proofs.Ledger.Demands

set_option autoImplicit false

/-! # No decision variable is lost

At every moment of a run the unassigned decision variables wait in the queue, but for one that was
just picked and is about to be assigned. So a pick that answers nothing means that every decision
variable has a value (`waits_of_new`). The moments are those that can be reached from a new solver
by steps in any order; the runs of calls are among them, and so is every state in which a search
picks a literal.

Nothing is asked of the order of the caller. It may name variables that do not exist or have been
discarded, and naming them does not take a variable out of the queue.
-/

namespace CardSat

/-- No open variable is lost at a moment. -/
structure Moment.Waits (x : Moment) : Prop where
  /-- An open variable is in the queue, unless it was just picked. -/
  waiting : ∀ v, x.engine.decisions.Open x.engine.trail v → x.picked.map Lit.var ≠ some v →
    v ∈ x.engine.decisions.queue.items.toList
  /-- Nothing is picked only if there is no open variable. -/
  complete : x.picked = none → ∀ d, x.engine.decisions.pick x.engine.trail = .ok (none, d) →
    ∀ v, ¬ x.engine.decisions.Open x.engine.trail v
  /-- A literal that is picked is over an open variable. -/
  isOpen : x.picked = none → ∀ l d, x.engine.decisions.pick x.engine.trail = .ok (some l, d) →
    x.engine.decisions.Open x.engine.trail l.var

theorem Moment.Sound.waits {r : DecisionSettings} {x : Moment} (h : Sound r x) : x.Waits where
  waiting v hv hp := h.stocked.waiting v ⟨hv.1, hp⟩ hv.2
  complete hp d hd := by
    obtain ⟨e, picked, past⟩ := x
    obtain rfl : picked = none := hp
    exact (Decisions.picks_of_pick hd h.waiting).complete rfl
  isOpen hp l d hd := by
    obtain ⟨e, picked, past⟩ := x
    obtain rfl : picked = none := hp
    exact (Decisions.picks_of_pick hd h.waiting).isOpen l rfl

/-- Whatever is called, and under all settings, no open variable is lost between two steps. -/
theorem waits_of_new {settings : Settings} {s : Solver} (h : Solver.new settings = .ok s)
    (past : Var → Past) :
    (∀ e, s.Visits e → ∃ past', Moment.Path ⟨s.engine, none, past⟩ ⟨e, none, past'⟩) ∧
      ∀ x, Moment.Path ⟨s.engine, none, past⟩ x → x.Waits :=
  have hs := Solver.sound_of_new h past
  ⟨fun _ hv => Solver.leads_of_visits hv _ _ hs, fun _ hp => (Moment.sound_of_path hs hp).waits⟩

open Lit (x0 x1) in
/-- After a decision the other variable waits, and it is the one that is picked. -/
theorem waits_after_decision : ∃ s s' past' l d, Solver.new {} = .ok s ∧ s.Lives s' ∧
    Moment.Path ⟨s.engine, none, fun _ => { initial := false }⟩ ⟨s'.engine, none, past'⟩ ∧
    s'.engine.decisions.Open s'.engine.trail x1.var ∧
    x1.var ∈ s'.engine.decisions.queue.items.toList ∧
    s'.engine.decisions.pick s'.engine.trail = .ok (some l, d) ∧
    s'.engine.decisions.Open s'.engine.trail l.var := by
  have hpass : ((Solver.new {} >>= fun s => s.newVar false true >>= fun a =>
      a.2.newVar false true >>= fun b => b.2.demand (.clause [x0, x1]) >>= fun c =>
      c.2.decide x0.var true >>= fun x => x.2.engine.decisions.pick x.2.engine.trail >>= fun r =>
      return (s, a, b, c, x, r)).toOption.any fun r =>
        decide (r.2.2.2.2.1.2.engine.decisions.Open r.2.2.2.2.1.2.engine.trail x1.var) &&
          r.2.2.2.2.2.1.isSome) = true := by
    simp (disch := decide) only [Solver.demand, Solver.addClause, Engine.addClause,
      Engine.addReduced, Lit.sortDistinct_of_pairwise]
    decide +kernel
  obtain ⟨r, hr, htest⟩ := exists_ok_of_test hpass
  simp only [bind_eq_ok, pure_eq_ok] at hr
  obtain ⟨s, hnew, ⟨v, s₁⟩, hfirst, ⟨u, s₂⟩, hsecond, ⟨b, s₃⟩, hclause, ⟨b', s'⟩, hdecide, ⟨o, d⟩,
    hpick, rfl⟩ := hr
  rw [Bool.and_eq_true, decide_eq_true_iff, Option.isSome_iff_exists] at htest
  obtain ⟨hopen, l, rfl⟩ := htest
  have hlives : s.Lives s' := .tail (.tail (.tail (.single (.newVar hfirst)) (.newVar hsecond))
    (.demand hclause)) (.decide hdecide)
  obtain ⟨hpaths, hwaits⟩ := waits_of_new hnew fun _ => { initial := false }
  obtain ⟨past', hpath⟩ := hpaths _ (.between hlives)
  have hw := hwaits _ hpath
  exact ⟨s, s', past', l, d, hnew, hlives, hpath, hopen, hw.waiting _ hopen (by simp), hpick,
    hw.isOpen rfl l d hpick⟩

end CardSat
