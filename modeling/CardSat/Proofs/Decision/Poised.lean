import CardSat.Proofs.Decision.Past
import CardSat.Proofs.Decision.Rule

set_option autoImplicit false

/-! # Decisions between two steps

`Decisions.Poised` is what holds of the decisions and the trail between any two steps: the trail is
valid, the queue holds every open variable but the one just picked, and the decisions recall the
past. One lemma for each way in which trail and decisions change together: values are added, values
are taken back, everything younger than a snapshot is discarded, a variable is added, a literal is
picked.

The literal just picked is a parameter, since a search picks a literal in one step and puts it on
the trail in the next. In between its variable is open and not in the queue. Every other step is
taken with no literal picked.
-/

namespace CardSat

namespace Decisions

/-- What holds between two steps. A literal that was picked has not been assigned yet. -/
structure Poised (d : Decisions) (r : DecisionSettings) (t : Trail) (picked : Option Lit)
    (past : Var → Past) : Prop where
  valid : t.Valid
  stocked : d.Stocked t.varCount fun v => t.Free v ∧ picked.map Lit.var ≠ some v
  recalls : d.Recalls r past

variable {r : DecisionSettings} {d d' : Decisions} {t t' : Trail} {picked : Option Lit}
  {past : Var → Past}

namespace Poised

/-- If no literal was picked, every free decision variable is waiting. -/
theorem waiting (h : d.Poised r t none past) : d.Stocked t.varCount t.Free :=
  h.stocked.mono fun _ hv => ⟨hv, by simp⟩

/-- The invariant is put together from its three parts. -/
theorem of_waiting (hv : t.Valid) (hs : d.Stocked t.varCount t.Free) (hr : d.Recalls r past) :
    d.Poised r t none past :=
  ⟨hv, hs.mono fun _ hv => hv.1, hr⟩

/-- Values are added, among them that of the literal that was picked. -/
theorem grow (h : d.Poised r t picked past) (hg : t.Grows t')
    (hpicked : ∀ l, picked = some l → ¬ t'.Free l.var) : d.Poised r t' none past := by
  refine of_waiting (hg.valid h.valid) ?_ h.recalls
  rw [hg.varCount]
  refine h.stocked.mono fun v hv => ⟨⟨hg.varCount ▸ hv.1, hg.isUnset hv.2⟩, fun hp => ?_⟩
  obtain ⟨l, hl, rfl⟩ := Option.map_eq_some_iff.1 hp
  exact hpicked l hl hv

/-- Values that are added make fewer variables open. -/
theorem grow_none (h : d.Poised r t none past) (hg : t.Grows t') : d.Poised r t' none past :=
  h.grow hg (by simp)

end Poised

/-- Bumps leave every variable where it is. -/
theorem poised_of_bumps {vars : List Var} (h : d.Poised r t none past)
    (hb : vars.foldlM bump d = .ok d') : d'.Poised r t none past :=
  .of_waiting h.valid (stocked_of_bumps hb h.waiting) (recalls_of_bumps hb h.recalls)

/-- Decaying activities moves nothing. -/
theorem poised_of_decay (h : d.Poised r t none past) : d.decay.Poised r t none past :=
  .of_waiting h.valid (stocked_of_decay h.waiting) (h.recalls.congr rfl rfl)

/-- The caller may set another order at any time. -/
theorem poised_of_setOrder (h : d.Poised r t none past) (order : List Lit) :
    (d.setOrder order).Poised r t none past :=
  .of_waiting h.valid (stocked_of_setOrder h.waiting order) (h.recalls.congr rfl rfl)

/-- The queue may be made anew at any time. -/
theorem poised_of_rebuild (h : d.Poised r t none past) (hr : d.rebuild t = .ok d') :
    d'.Poised r t none past :=
  .of_waiting h.valid
    (stocked_of_rebuild hr h.waiting.chosen h.waiting.rated h.waiting.passed)
    (recalls_of_rebuild hr h.recalls)

/-- The free variables after going back are those before and those that have lost their value. -/
theorem poised_of_rewind {b : Nat} (h : d.Poised r t none past)
    (hd : (t.rewind b).1.foldlM (fun (d : Decisions) p => d.takeBack p.2 (p.1 = t.level)) d =
      .ok d') : d'.Poised r (t.rewind b).2 none (t.pasts (t.rewind b).2 false past) := by
  refine .of_waiting (Trail.valid_rewind h.valid b) ?_ (recalls_of_rewind h.valid hd h.recalls)
  rw [Trail.varCount_rewind]
  refine (stocked_of_takeBacks hd h.waiting).mono fun v hv => ?_
  by_cases hset : (t.cellOf v).value.isUnset = true
  · exact Or.inl ⟨Trail.varCount_rewind t b ▸ hv.1, hset⟩
  · refine Or.inr ((Trail.loses_rewind h.valid).1 ?_)
    rw [Trail.loses, Bool.and_eq_true, Bool.not_eq_true', ← Bool.not_eq_true]
    exact ⟨hset, hv.2⟩

/-- Every value is taken back, reasons are cleared, and the variables from number `n` on are
forgotten. -/
theorem poised_of_truncateVars {d₁ : Decisions} {t₁ : Trail} {n : Nat} (h : d.Poised r t none past)
    (hundo : t.rewindAll.1.foldlM (fun (d : Decisions) l => d.takeBack l true) d = .ok d₁)
    (hc : t.rewindAll.2.Cleared t₁) (ht : t₁.truncateVars n = .ok t')
    (hd : d₁.truncateVars n t' = .ok d') : d'.Poised r t' none (t.pasts t' true past) := by
  have hvalid := Trail.valid_truncateVars (hc.valid (Trail.valid_rewindAll h.valid)) ht
  obtain ⟨hlits, rfl⟩ := Trail.truncateVars_eq_ok.1 ht
  refine .of_waiting hvalid ?_ (recalls_of_truncateVars hd
    (recalls_of_rewindAll h.valid hvalid hlits hundo h.recalls))
  have hcount : t₁.varCount = t.varCount := hc.varCount.trans (Trail.varCount_rewindAll _)
  have hs := stocked_of_truncateVars hd (stocked_of_takeBacks (g := id) hundo h.waiting)
  rw [← hcount] at hs
  simpa [Trail.varCount] using hs

/-- A new variable is open and waits. -/
theorem poised_of_addVar {v : Var} {negated decision : Bool} (h : d.Poised r t none past)
    (ht : t.newVar = .ok (v, t')) (hd : d.addVar v negated decision = .ok d') :
    d'.Poised r t' none (Function.update past v { initial := negated }) := by
  obtain ⟨rfl, -, rfl⟩ := Trail.newVar_eq_ok ht
  refine .of_waiting (Trail.valid_push h.valid) ?_ (recalls_of_addVar hd h.recalls)
  rw [Trail.varCount, Array.size_push]
  refine (stocked_of_addVar rfl hd h.waiting).mono fun u hu => ?_
  rw [Trail.Free, Trail.cellOf_push, Trail.varCount, Array.size_push] at hu
  rcases Nat.lt_succ_iff_lt_or_eq.1 hu.1 with hlt | heq
  · exact Or.inl ⟨hlt, hu.2⟩
  · exact Or.inr (Var.index_inj.1 heq)

/-- A pick takes one variable out of the queue, and that one is the literal's. -/
theorem poised_of_pick {o : Option Lit} (h : d.Poised r t none past) (hp : d.pick t = .ok (o, d')) :
    d'.Poised r t o past := by
  have hpicks := picks_of_pick hp h.waiting
  exact ⟨h.valid, hpicks.stocked, h.recalls.congr hpicks.choices hpicks.settings⟩

/-- The literal that was picked is assigned on a level of its own. -/
theorem poised_of_decide {l : Lit} (h : d.Poised r t (some l) past)
    (ha : t.openLevel.assign l none = .ok t') : d.Poised r t' none past := by
  have hg := Trail.grows_of_decide ha
  refine h.grow hg fun m hm hfree => ?_
  obtain rfl := Option.some.inj hm
  have htrue := ((hg.valid h.valid).truth_yes l).2
    ((Trail.assigned_of_assign ha).mem_iff.2 (Or.inr rfl))
  rw [Trail.isUnset_iff.1 hfree.2] at htrue
  cases htrue

end Decisions

end CardSat
