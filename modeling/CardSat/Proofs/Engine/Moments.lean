import CardSat.Engine.Rollback
import CardSat.Proofs.Database.Clearing
import CardSat.Proofs.Decision.Poised
import CardSat.Proofs.Engine.Steps
import CardSat.Proofs.Engine.Thinning
import CardSat.Proofs.Propagation.Growing
import Mathlib.Logic.Relation

set_option autoImplicit false

/-! # The moments of an engine

A `Moment` is the state of an engine between two steps, with the literal that was just picked, if it
has not been assigned yet, and with the past of every variable. `Moment.Next` is one step: the
operations of which searches and calls are made, in any order, and with any arguments for which they
return. `Engine.Step` are those that do not differ in what they mean for the past.

Every moment that is reached from a sound one is sound (`Moment.sound_of_path`): its decisions are
poised. What is known of the constraints plays no role, so this holds whatever was added, learnt or
loaded.

## Why the steps are those of the operations

The calls of the solver and the loops of a search are long, and each of them decides which
operations come next. What is shown here does not depend on that. It is shown for every sequence of
operations, so there is one case to each operation, and a call or a loop has only to be seen as such
a sequence (`Proofs.Engine.Passages`).
-/

namespace CardSat

namespace Engine

/-- The steps of an engine, but for those that add variables, go back to a snapshot, or pick. -/
inductive Step (e : Engine) : Engine → Prop
  | propagate {e' : Engine} {failed : Option Handle} (h : e.propagate = .ok (failed, e')) :
      Step e e'
  | openLevel : Step e { e with network := { e.network with trail := e.trail.openLevel } }
  | assign {e' : Engine} {l : Lit} {r : Option Handle} (h : e.assign l r = .ok e') : Step e e'
  | tryAssign {t : Trail} {l : Lit} {b : Bool} (h : e.trail.tryAssign l none = .ok (b, t)) :
      Step e { e with network := { e.network with trail := t } }
  | decideLit {e' : Engine} {l : Lit} (h : e.decideLit l = .ok e') : Step e e'
  | cancelUntil {e' : Engine} {b : Nat} (h : e.cancelUntil b = .ok e') : Step e e'
  | analyze {e' : Engine} {failed : Handle} {lesson : Lesson}
      (h : e.analyze failed = .ok (lesson, e')) : Step e e'
  | decay : Step e e.decay
  | simplify {e' : Engine} (h : e.simplify = .ok e') : Step e e'
  | reduce {e' : Engine} (h : e.reduce = .ok e') : Step e e'
  | setOrder (order : List Lit) : Step e { e with decisions := e.decisions.setOrder order }
  /-- What concerns neither the trail nor the decisions. -/
  | other {e' : Engine} (htrail : e'.trail = e.trail) (hdecisions : e'.decisions = e.decisions) :
      Step e e'

/-- Any number of such steps. -/
abbrev Steps : Engine → Engine → Prop := Relation.ReflTransGen Step

end Engine

/-- A state between two steps. -/
structure Moment where
  engine : Engine
  /-- The literal that was just picked. -/
  picked : Option Lit
  /-- What became of the variables so far. -/
  past : Var → Past

namespace Moment

open Engine

/-- From one moment to the next. A literal that was picked is assigned at once. -/
inductive Next : Moment → Moment → Prop
  | newVar {e e' : Engine} {v : Var} {negated decision : Bool} {past : Var → Past}
      (h : e.newVar negated decision = .ok (v, e')) :
      Next ⟨e, none, past⟩ ⟨e', none, Function.update past v { initial := negated }⟩
  | step {e e' : Engine} {past : Var → Past} (h : e.Step e') :
      Next ⟨e, none, past⟩ ⟨e', none, e.trail.pasts e'.trail false past⟩
  | reload {e e' : Engine} {snapshot : Snapshot} {past : Var → Past}
      (h : e.discardSince snapshot = .ok e') :
      Next ⟨e, none, past⟩ ⟨e', none, e.trail.pasts e'.trail true past⟩
  | pick {e : Engine} {o : Option Lit} {d : Decisions} {decided : Nat} {past : Var → Past}
      (h : e.decisions.pick e.trail = .ok (o, d)) :
      Next ⟨e, none, past⟩ ⟨{ e with decisions := d, decided }, o, past⟩
  | decide {e e' : Engine} {l : Lit} {past : Var → Past} (h : e.decideLit l = .ok e') :
      Next ⟨e, some l, past⟩ ⟨e', none, e.trail.pasts e'.trail false past⟩

/-- Any number of steps. -/
abbrev Path : Moment → Moment → Prop := Relation.ReflTransGen Next

/-- The decisions are poised, under the settings that the solver was made with. -/
def Sound (r : DecisionSettings) (x : Moment) : Prop :=
  x.engine.decisions.Poised r x.engine.trail x.picked x.past

variable {r : DecisionSettings} {e e' : Engine} {past : Var → Past} {x y : Moment}

/-! ## One step -/

/-- Every value stays, and so do the decisions. -/
theorem Sound.grow (h : Sound r ⟨e, none, past⟩) (hg : e.trail.Grows e'.trail)
    (hd : e'.decisions = e.decisions) : Sound r ⟨e', none, e.trail.pasts e'.trail false past⟩ := by
  rw [Sound, hg.pasts, hd]
  exact Decisions.Poised.grow_none h hg

/-- The trail stays. -/
theorem Sound.redecide (h : e'.decisions.Poised r e.trail none past) (ht : e'.trail = e.trail) :
    Sound r ⟨e', none, e.trail.pasts e'.trail false past⟩ := by
  rw [Sound, ht, (Trail.Grows.refl _).pasts]
  exact h

/-- Simplifying makes the queue anew after it has removed constraints. -/
theorem sound_of_simplify (h : Sound r ⟨e, none, past⟩) (hs : e.simplify = .ok e') :
    Sound r ⟨e', none, e.trail.pasts e'.trail false past⟩ := by
  rcases simplify_eq_ok hs with rfl | ⟨-, db, s, e₁, d, hremove, hsweep, hrebuild, rfl⟩
  · exact h.grow (.refl _) rfl
  · obtain ⟨index, -, -, rfl⟩ := afterSweep_eq_ok hsweep
    have hg := (Database.cleared_of_removeSatisfied hremove).grows
    have hd : d.Poised r s.trail none (e.trail.pasts s.trail false past) := by
      rw [hg.pasts]
      exact Decisions.poised_of_rebuild (Decisions.Poised.grow_none h hg) hrebuild
    exact hd

/-- Every step that takes its past from the trail leaves a sound moment. -/
theorem sound_of_step (h : Sound r ⟨e, none, past⟩) (hs : e.Step e') :
    Sound r ⟨e', none, e.trail.pasts e'.trail false past⟩ := by
  cases hs with
  | propagate hp =>
      obtain ⟨n, hn, rfl⟩ := propagate_eq_ok.1 hp
      exact h.grow (Network.grows_of_propagate hn) rfl
  | openLevel => exact h.grow (Trail.grows_openLevel _) rfl
  | assign ha =>
      obtain ⟨t, ht, rfl⟩ := assign_eq_ok.1 ha
      exact h.grow (Trail.assigned_of_assign ht).grows rfl
  | tryAssign ha => exact h.grow (Trail.grows_of_tryAssign ha) rfl
  | decideLit hd =>
      obtain ⟨t, ht, rfl⟩ := decideLit_eq_ok.1 hd
      exact h.grow (Trail.grows_of_decide ht) rfl
  | cancelUntil hc =>
      obtain ⟨d, hd, rfl⟩ := cancelUntil_eq_ok.1 hc
      exact Decisions.poised_of_rewind h hd
  | analyze ha =>
      obtain ⟨_, _, d, _, _, -, hbump, -, -, -, rfl⟩ := analyze_eq_ok ha
      exact .redecide (Decisions.poised_of_bumps h hbump) rfl
  | decay => exact .redecide (Decisions.poised_of_decay h) rfl
  | simplify hs => exact sound_of_simplify h hs
  | reduce hr =>
      rcases reduce_eq_ok hr with rfl | ⟨db, s, e₁, hreduce, hsweep, rfl⟩
      · exact h.grow (.refl _) rfl
      · obtain ⟨index, -, -, rfl⟩ := afterSweep_eq_ok hsweep
        exact h.grow (Database.cleared_of_reduce hreduce).grows rfl
  | setOrder order => exact .redecide (Decisions.poised_of_setOrder h order) rfl
  | other ht hd => exact h.grow (ht ▸ .refl _) hd

/-- What going back to a snapshot does to the trail and the decisions, for any snapshot. -/
theorem exists_of_discardSince {snapshot : Snapshot} (h : e.discardSince snapshot = .ok e') :
    ∃ d db s n, e.trail.rewindAll.1.foldlM (fun (d : Decisions) l => d.takeBack l true)
        e.decisions = .ok d ∧
      e.database.truncate e.store e.trail.rewindAll.2 snapshot.clauses snapshot.learnts
        snapshot.units = .ok (db, s) ∧
      s.trail.truncateVars n = .ok e'.trail ∧ d.truncateVars n e'.trail = .ok e'.decisions := by
  simp only [discardSince, bind_eq_ok, pure_eq_ok] at h
  obtain ⟨d, hundo, ⟨db, s⟩, htruncate, index, -, t, ht, d₂, hd₂, rfl⟩ := h
  exact ⟨d, db, s, _, hundo, htruncate, ht, hd₂⟩

/-- Every step leaves a sound moment. -/
theorem sound_of_next (h : Sound r x) (hn : Next x y) : Sound r y := by
  cases hn with
  | newVar hn =>
      simp only [Engine.newVar, bind_eq_ok, pure_eq_ok, Prod.mk.injEq] at hn
      obtain ⟨⟨u, t⟩, ht, d, hd, rfl, rfl⟩ := hn
      exact Decisions.poised_of_addVar h ht hd
  | step hs => exact sound_of_step h hs
  | reload hd =>
      obtain ⟨d, db, s, n, hundo, htruncate, ht, hforget⟩ := exists_of_discardSince hd
      exact Decisions.poised_of_truncateVars h hundo (Database.cleared_of_truncate htruncate) ht
        hforget
  | pick hp => exact Decisions.poised_of_pick h hp
  | decide hd =>
      obtain ⟨t, ht, rfl⟩ := decideLit_eq_ok.1 hd
      rw [(Trail.grows_of_decide ht).pasts]
      exact Decisions.poised_of_decide h ht

/-! ## Any number of steps -/

/-- So do any number of steps. -/
theorem sound_of_path (h : Sound r x) (hp : Path x y) : Sound r y := by
  induction hp with
  | refl => exact h
  | tail _ hn ih => exact sound_of_next ih hn

end Moment

end CardSat
