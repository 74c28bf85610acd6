import CardSat.Proofs.Ledger.Calling
import CardSat.Proofs.Ledger.Demands

set_option autoImplicit false

/-! # The rule by which decisions are made

Unless decisions are random, a search decides the first literal of the caller's order that is over
an unassigned decision variable, as it stands there. If there is none it decides a variable that no
other unassigned decision variable exceeds in activity, on the side that the phase saving asks for
(`follows_of_new`). What a variable remembers is kept beside the run, as its `Past`, so that this is
a statement about the values which it really had.

Activities are floats. The statement compares them as such, and asks only that none of them is a NaN
at the time of the pick.

The theorem is about every state in which a search picks, in any life of a solver (`Solver.Visits`).
It is put together from two parts that know nothing of each other: every such state is reached by
steps from a new solver, so its decisions are poised (`Moment.sound_of_path`), and a pick from
poised decisions follows the rule (`Decisions.picks_of_pick`).
-/

namespace CardSat

/-- The pick at a moment follows the rule, under the given phase saving. -/
structure Moment.Follows (p : PhaseSaving) (x : Moment) : Prop where
  /-- A pick answers if it comes across known variables only. -/
  answers : x.engine.decisions.OrderKnown x.engine.trail →
    ∃ o d, x.engine.decisions.pick x.engine.trail = .ok (o, d)
  /-- The caller's order comes first. -/
  ordered : ∀ o d, x.engine.decisions.pick x.engine.trail = .ok (o, d) →
    (∃ l ∈ x.engine.decisions.order.toList, x.engine.decisions.Open x.engine.trail l.var) →
    ∃ l, x.engine.decisions.FirstOpen x.engine.trail l ∧ o = some l
  /-- Otherwise something is picked as long as there is an open variable. -/
  complete : ∀ d, x.engine.decisions.pick x.engine.trail = .ok (none, d) →
    ∀ v, ¬ x.engine.decisions.Open x.engine.trail v
  isOpen : ∀ l d, x.engine.decisions.pick x.engine.trail = .ok (some l, d) →
    x.engine.decisions.Open x.engine.trail l.var
  /-- No open variable is more active than the one that is picked. -/
  active : ∀ l d, x.engine.decisions.pick x.engine.trail = .ok (some l, d) →
    x.engine.decisions.OrderDone x.engine.trail →
    Decisions.Numeric x.engine.decisions.activities →
    ∀ u, x.engine.decisions.Open x.engine.trail u →
      Decisions.activityOf x.engine.decisions.activities u ≤
        Decisions.activityOf x.engine.decisions.activities l.var
  /-- Its side is the remembered one. -/
  side : ∀ l d, x.engine.decisions.pick x.engine.trail = .ok (some l, d) →
    x.engine.decisions.OrderDone x.engine.trail → l.negated = (x.past l.var).side p

theorem Decisions.le_of_not_moreActive {activities : SparseTable Float} {u v : Var}
    (hn : Numeric activities) (h : moreActive activities u v = false) :
    activityOf activities u ≤ activityOf activities v := by
  refine float_le_iff.2 ⟨hn.isNaN u, hn.isNaN v, not_lt.1 fun hlt => ?_⟩
  rw [(moreActive_eq_true hn).2 hlt] at h
  cases h

theorem Moment.Sound.follows {r : DecisionSettings} {e : Engine} {past : Var → Past}
    (h : Sound r ⟨e, none, past⟩) (hfreq : ¬ r.randomFreq > 0.0) (hside : r.randomSide = false) :
    Follows r.phaseSaving ⟨e, none, past⟩ := by
  have hsettings : e.decisions.settings = r := h.recalls.settings
  have hpicks := fun {o d} (hp : e.decisions.pick e.trail = .ok (o, d)) =>
    Decisions.picks_of_pick hp h.waiting
  refine ⟨fun ho => ?_, fun o d hp hsome => ?_, fun d hp => (hpicks hp).complete rfl,
    fun l d hp => (hpicks hp).isOpen l rfl, fun l d hp hdone hn u hu => ?_, fun l d hp hdone => ?_⟩
  · obtain ⟨⟨o, d⟩, hp⟩ := Decisions.Stocked.succeeds_pick h.waiting ho fun hyes =>
      absurd (hsettings ▸ hyes) hfreq
    exact ⟨o, d, hp⟩
  · obtain ⟨l, hl⟩ := Decisions.exists_firstOpen hsome
    exact ⟨l, hl, (hpicks hp).ordered l hl⟩
  · exact Decisions.le_of_not_moreActive hn
      ((hpicks hp).foremost hdone (hsettings ▸ hfreq) l rfl hn u hu)
  · obtain ⟨c, hc, hneg⟩ := (hpicks hp).remembered hdone (hsettings ▸ hside) l rfl
    exact hneg.trans (h.recalls.sides l.var c hc)

end CardSat
