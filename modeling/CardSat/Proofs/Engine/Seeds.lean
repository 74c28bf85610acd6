import CardSat.Proofs.Decision.Picking
import CardSat.Proofs.Engine.Moments

set_option autoImplicit false

/-! # The random numbers of a run

A random position of the queue exists if the queue is short and the state of the generator is below
the modulus (`Decisions.Steady`). Both are facts about a whole run. The queue is short since the
variables are numbered by machine words, and each of them waits in it once. The state is below the
modulus if the seed is, since whatever a run does continues one sequence of random numbers.

So there is one lemma for a step (`Engine.Step.continues`, `Moment.continues_of_next`) and one for
any number of steps, and the same for the number of variables. `Moment.steady_of_path` puts them
together for the states that can be reached from a new engine.
-/

namespace CardSat

namespace Engine

variable {e e' : Engine}

/-- A step adds no variable and drops none. -/
theorem Step.varCount_eq (h : e.Step e') : e'.trail.varCount = e.trail.varCount := by
  cases h with
  | propagate hp =>
      obtain ⟨n, hn, rfl⟩ := propagate_eq_ok.1 hp
      exact (Network.grows_of_propagate hn).varCount
  | openLevel => rfl
  | assign ha =>
      obtain ⟨t, ht, rfl⟩ := assign_eq_ok.1 ha
      exact (Trail.assigned_of_assign ht).grows.varCount
  | tryAssign ha => exact (Trail.grows_of_tryAssign ha).varCount
  | decideLit hd =>
      obtain ⟨t, ht, rfl⟩ := decideLit_eq_ok.1 hd
      exact (Trail.grows_of_decide ht).varCount
  | @cancelUntil _ b hc =>
      obtain ⟨d, -, rfl⟩ := cancelUntil_eq_ok.1 hc
      exact Trail.varCount_rewind e.trail b
  | analyze ha =>
      obtain ⟨_, _, d, _, _, -, -, -, -, -, rfl⟩ := analyze_eq_ok ha
      rfl
  | decay => rfl
  | simplify hs =>
      rcases simplify_eq_ok hs with rfl | ⟨-, db, s, e₁, d, hremove, hsweep, -, rfl⟩
      · rfl
      · obtain ⟨index, -, -, rfl⟩ := afterSweep_eq_ok hsweep
        exact (Database.cleared_of_removeSatisfied hremove).grows.varCount
  | reduce hr =>
      rcases reduce_eq_ok hr with rfl | ⟨db, s, e₁, hreduce, hsweep, rfl⟩
      · rfl
      · obtain ⟨index, -, -, rfl⟩ := afterSweep_eq_ok hsweep
        exact (Database.cleared_of_reduce hreduce).grows.varCount
  | setOrder order => rfl
  | other ht hd => rw [ht]

/-- Any number of steps leave the number of variables alone. -/
theorem Steps.varCount_eq (h : e.Steps e') : e'.trail.varCount = e.trail.varCount := by
  induction h with
  | refl => rfl
  | tail _ h ih => exact h.varCount_eq.trans ih

/-- A new variable has the next number, which fits a machine word. -/
theorem varCount_of_newVar {v : Var} {negated decision : Bool}
    (h : e.newVar negated decision = .ok (v, e')) :
    v = ⟨e.trail.varCount⟩ ∧ e.trail.varCount ≤ Var.maxIndex ∧
      e'.trail.varCount = e.trail.varCount + 1 := by
  simp only [newVar, bind_eq_ok, pure_eq_ok, Prod.mk.injEq] at h
  obtain ⟨⟨u, t⟩, ht, d, -, rfl, rfl⟩ := h
  obtain ⟨hu, hle, rfl⟩ := Trail.newVar_eq_ok ht
  exact ⟨hu, hle, Array.size_push _⟩

/-- A step draws no number, so the sequence stays where it is. -/
theorem Step.continues (h : e.Step e') : e.decisions.Continues e'.decisions := by
  cases h with
  | propagate hp =>
      obtain ⟨n, -, rfl⟩ := propagate_eq_ok.1 hp
      exact .refl _
  | openLevel => exact .refl _
  | assign ha =>
      obtain ⟨t, -, rfl⟩ := assign_eq_ok.1 ha
      exact .refl _
  | tryAssign ha => exact .refl _
  | decideLit hd =>
      obtain ⟨t, -, rfl⟩ := decideLit_eq_ok.1 hd
      exact .refl _
  | cancelUntil hc =>
      obtain ⟨d, hd, rfl⟩ := cancelUntil_eq_ok.1 hc
      exact Decisions.continues_of_foldlM (fun _ _ _ => Decisions.continues_of_takeBack) hd
  | analyze ha =>
      obtain ⟨_, _, d, _, _, -, hbump, -, -, -, rfl⟩ := analyze_eq_ok ha
      exact Decisions.continues_of_foldlM (fun _ _ _ => Decisions.continues_of_bump) hbump
  | decay => exact .of_same rfl rfl
  | simplify hs =>
      rcases simplify_eq_ok hs with rfl | ⟨-, db, s, e₁, d, -, hsweep, hrebuild, rfl⟩
      · exact .refl _
      · obtain ⟨index, -, -, rfl⟩ := afterSweep_eq_ok hsweep
        -- the queue is rebuilt, and the generator is left alone
        exact Decisions.continues_of_rebuild hrebuild
  | reduce hr =>
      rcases reduce_eq_ok hr with rfl | ⟨db, s, e₁, -, hsweep, rfl⟩
      · exact .refl _
      · obtain ⟨index, -, -, rfl⟩ := afterSweep_eq_ok hsweep
        exact .refl _
  | setOrder order => exact .of_same rfl rfl
  | other ht hd => exact hd ▸ .refl _

end Engine

namespace Moment

open Engine

variable {r : DecisionSettings} {e e' : Engine} {past : Var → Past} {x y : Moment}

/-! ## One step -/

/-- Every step continues the sequence of random numbers. -/
theorem continues_of_next (h : Next x y) : x.engine.decisions.Continues y.engine.decisions := by
  cases h with
  | newVar hn =>
      simp only [Engine.newVar, bind_eq_ok, pure_eq_ok, Prod.mk.injEq] at hn
      obtain ⟨⟨u, t⟩, -, d, hd, -, rfl⟩ := hn
      exact Decisions.continues_of_addVar hd
  | step hs => exact hs.continues
  | reload hd =>
      obtain ⟨d, db, s, n, hundo, -, -, hforget⟩ := exists_of_discardSince hd
      exact (Decisions.continues_of_foldlM (fun _ _ _ => Decisions.continues_of_takeBack) hundo).trans
        (Decisions.continues_of_truncateVars hforget)
  | pick hp => exact Decisions.continues_of_pick hp
  | decide hd => exact (Step.decideLit hd).continues

/-- A variable is refused if its number does not fit a machine word. -/
theorem varCount_of_next (h : Next x y) (hx : x.engine.trail.varCount ≤ Var.maxIndex + 1) :
    y.engine.trail.varCount ≤ Var.maxIndex + 1 := by
  cases h with
  | newVar hn =>
      obtain ⟨-, hle, hcount⟩ := varCount_of_newVar hn
      exact hcount.trans_le (Nat.succ_le_succ hle)
  | step hs => exact hs.varCount_eq.trans_le hx
  | reload hd =>
      obtain ⟨d, db, s, n, -, htruncate, ht, -⟩ := exists_of_discardSince hd
      obtain ⟨-, htrail⟩ := Trail.truncateVars_eq_ok.1 ht
      have hcount : s.trail.varCount = _ :=
        (Database.cleared_of_truncate htruncate).varCount.trans (Trail.varCount_rewindAll _)
      have htaken : (s.trail.cells.take n).size ≤ s.trail.varCount := by simp [Trail.varCount]
      rw [htrail]
      exact htaken.trans (hcount.trans_le hx)
  | pick hp => exact hx
  | decide hd => exact (Step.decideLit hd).varCount_eq.trans_le hx

/-! ## Any number of steps -/

/-- Any number of steps continue it. -/
theorem continues_of_path (h : Path x y) : x.engine.decisions.Continues y.engine.decisions := by
  induction h with
  | refl => exact .refl _
  | tail _ hn ih => exact ih.trans (continues_of_next hn)

/-- The variables are numbered by machine words, whatever is done. -/
theorem varCount_of_path (h : Path x y) (hx : x.engine.trail.varCount ≤ Var.maxIndex + 1) :
    y.engine.trail.varCount ≤ Var.maxIndex + 1 := by
  induction h with
  | refl => exact hx
  | tail _ hn ih => exact varCount_of_next hn ih

/-- From a state whose generator is below the modulus if that is needed, only such states are
reached. -/
theorem steady_of_path (hs : Sound r x) (hp : Path x ⟨e, none, past⟩)
    (hcount : x.engine.trail.varCount ≤ Var.maxIndex + 1)
    (hseed : r.randomFreq > 1.0 → x.engine.decisions.generator.seed < Generator.modulus) :
    e.decisions.Steady := by
  have hsound : Decisions.Poised e.decisions r e.trail none past := sound_of_path hs hp
  have hcount' : e.trail.varCount ≤ Var.maxIndex + 1 := varCount_of_path hp hcount
  intro _
  refine ⟨?_, fun hgreat => ?_⟩
  · have hsize := hsound.waiting.placed.size_le hsound.waiting.queued
    calc e.decisions.queue.size ≤ e.trail.varCount := hsize
      _ ≤ Var.maxIndex + 1 := hcount'
      _ < 2 ^ 53 := by decide
  · rw [hsound.recalls.settings] at hgreat
    exact (continues_of_path hp).lt_modulus (hseed hgreat)

end Moment

end CardSat
