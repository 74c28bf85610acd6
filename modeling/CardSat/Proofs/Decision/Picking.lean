import CardSat.Proofs.Decision
import CardSat.Proofs.Decision.Drawing
import CardSat.Proofs.Propagation.Returning

set_option autoImplicit false

/-! # Decisions can be chosen

When every variable that waits in the queue is known, picking a decision is not refused
(`Decisions.succeeds_pick`), with one exception. A random position of the queue is read without
looking whether it exists, and whether it does is up to the generator, which computes in
floating-point arithmetic. `Decisions.Steady` says what the generator needs. The queue must not be
too long for its length to be a float. If the probability of a random decision is set to more than
one, then the state of the generator must be below its modulus. With a probability that is one, that
is not needed: a position is drawn only after a number below the probability, and the state that
such a number comes from is below the modulus, whatever the seed was.

The state of the generator moves with every draw. `Decisions.Continues` says that the random numbers
to come continue the same sequence. Every operation on decisions does this, so a state below the
modulus stays below it.
-/

namespace CardSat

namespace Decisions

variable {d d' : Decisions} {t : Trail} {free : Var → Prop}

/-- Where variables are to be decided at random, the positions that are drawn exist. -/
def Steady (d : Decisions) : Prop :=
  d.settings.randomFreq > 0.0 → d.queue.size < 2 ^ 53 ∧
    (d.settings.randomFreq > 1.0 → d.generator.seed < Generator.modulus)

/-- A position that is drawn after the event that one is drawn exists. -/
theorem Steady.position_lt (hs : d.Steady)
    (hyes : (d.generator.chance d.settings.randomFreq).1 = true) (hsize : 0 < d.queue.size) :
    ((d.generator.chance d.settings.randomFreq).2.below d.queue.size).1 < d.queue.size := by
  have hfreq : d.settings.randomFreq > 0.0 := by
    by_contra hno
    simp [Generator.chance, hno] at hyes
  obtain ⟨hshort, hseed⟩ := hs hfreq
  refine Generator.below_lt ?_ hsize hshort
  by_cases hgreat : d.settings.randomFreq > 1.0
  · exact Generator.chance_lt_modulus (hseed hgreat) _
  · exact Generator.lt_modulus_of_chance hyes hgreat

/-! ## The sequence of random numbers

The generator is part of the decisions, and each random event moves it on. None of the other
operations touches it. -/

/-- The settings are the same, and the random numbers to come continue the sequence. -/
structure Continues (d d' : Decisions) : Prop where
  settings : d'.settings = d.settings
  generator : ∃ k, d'.generator = (fun g : Generator => g.next.2)^[k] d.generator

namespace Continues

/-- What leaves settings and generator alone continues the sequence. -/
theorem of_same (hsettings : d'.settings = d.settings) (hgenerator : d'.generator = d.generator) :
    d.Continues d' :=
  ⟨hsettings, 0, hgenerator⟩

/-- Doing nothing continues the sequence. -/
theorem refl (d : Decisions) : d.Continues d := .of_same rfl rfl

/-- Two steps that continue the sequence continue it together. -/
theorem trans {d'' : Decisions} (h : d.Continues d') (h' : d'.Continues d'') : d.Continues d'' := by
  obtain ⟨k, hk⟩ := h.generator
  obtain ⟨k', hk'⟩ := h'.generator
  refine ⟨h'.settings.trans h.settings, k' + k, ?_⟩
  rw [hk', hk, Function.iterate_add_apply]

/-- Each number that was drawn leaves the state below the modulus. -/
theorem lt_modulus (h : d.Continues d') (hseed : d.generator.seed < Generator.modulus) :
    d'.generator.seed < Generator.modulus := by
  obtain ⟨k, hk⟩ := h.generator
  rw [hk]
  clear hk
  induction k with
  | zero => exact hseed
  | succ k ih =>
      rw [Function.iterate_succ_apply']
      exact Generator.next_lt_modulus ih

/-- A draw continues it. -/
theorem chance (d : Decisions) (p : Float) :
    d.Continues { d with generator := (d.generator.chance p).2 } := by
  rw [Generator.chance]
  split
  · exact ⟨rfl, 1, rfl⟩
  · exact .refl d

end Continues

/-- Choosing whether a variable is to be decided leaves the generator alone. -/
theorem continues_of_setDecision {v : Var} {b : Bool} (h : d.setDecision v b = .ok d') :
    d.Continues d' := by
  simp only [setDecision, bind_eq_ok] at h
  obtain ⟨c, -, h⟩ := h
  split at h
  next => exact pure_eq_ok.1 h ▸ .refl d
  next =>
      split at h
      all_goals exact pure_eq_ok.1 h ▸ .of_same rfl rfl

/-- A new variable may start with a small random activity. -/
theorem continues_of_addVar {v : Var} {negated decision : Bool}
    (h : d.addVar v negated decision = .ok d') : d.Continues d' := by
  unfold addVar at h
  split at h
  next x g hstart =>
      split at hstart
      next =>
          obtain ⟨-, rfl⟩ := Prod.mk.inj hstart
          refine Continues.trans ?_ (continues_of_setDecision h)
          exact ⟨rfl, 1, rfl⟩
      next =>
          obtain ⟨-, rfl⟩ := Prod.mk.inj hstart
          refine Continues.trans ?_ (continues_of_setDecision h)
          exact .of_same rfl rfl

/-- Taking back a value leaves the generator alone. -/
theorem continues_of_takeBack {l : Lit} {top : Bool} (h : d.takeBack l top = .ok d') :
    d.Continues d' := by
  obtain ⟨c, -, rfl⟩ := takeBack_eq_ok.1 h
  split
  all_goals exact .of_same rfl rfl

/-- A bump leaves the generator alone. -/
theorem continues_of_bump {v : Var} (h : d.bump v = .ok d') : d.Continues d' := by
  obtain ⟨a, increment, -, rfl⟩ := exists_of_bump h
  generalize d.raise v (a + d.increment) = activities
  exact .of_same rfl rfl

/-- Making the queue anew leaves the generator alone. -/
theorem continues_of_rebuild (h : d.rebuild t = .ok d') : d.Continues d' := by
  obtain ⟨vars, rfl, -⟩ := exists_of_rebuild h
  exact .of_same rfl rfl

/-- Discarding variables leaves the generator alone. -/
theorem continues_of_truncateVars {n : Nat} (h : d.truncateVars n t = .ok d') :
    d.Continues d' := by
  unfold truncateVars at h
  refine Continues.trans ?_ (continues_of_rebuild h)
  exact .of_same rfl rfl

/-- What each step continues, a loop continues. -/
theorem continues_of_foldlM {α : Type} {f : Decisions → α → Checked Decisions} {as : List α}
    (hf : ∀ d₁ d₂ a, f d₁ a = .ok d₂ → d₁.Continues d₂) (h : as.foldlM f d = .ok d') :
    d.Continues d' :=
  foldlM_ok (fun _ d₁ => d.Continues d₁) (fun _ _ _ _ h₁ h₂ => h₁.trans (hf _ _ _ h₂)) (.refl d) h

/-! ## What was picked -/

/-- The variable that is picked is free and to be decided. -/
theorem free_of_pickVar {v : Var} (h : d.pickVar t = .ok (some v, d')) :
    t.Free v ∧ d.decides v = some true := by
  rcases pickVar_eq_ok.1 h with ⟨u, hu, hrandom⟩ | ⟨d₁, hrandom, hactive⟩
  · exact ((exists_of_pickRandom hrandom).2 v hu.symm).1
  · obtain ⟨⟨generator, count, rfl⟩, -⟩ := exists_of_pickRandom hrandom
    exact (exists_of_pickActive hactive).2 v rfl

/-- A literal that is picked has no value. -/
theorem free_of_pick {l : Lit} (h : d.pick t = .ok (some l, d')) : t.Free l.var := by
  cases drawn_of_pick h with
  | listed hordered => exact ((exists_of_pickOrdered hordered).2 l rfl).1
  | randomSide hordered hvar => exact (free_of_pickVar hvar).1
  | knownSide hordered hvar => exact (free_of_pickVar hvar).1

/-! ## Picking continues the sequence -/

/-- Going through the caller's order draws nothing. -/
theorem continues_of_pickOrdered {n : Nat} {o : Option Lit}
    (h : pickOrdered t n d = .ok (o, d')) : d.Continues d' := by
  obtain ⟨⟨head, rfl⟩, -⟩ := exists_of_pickOrdered h
  exact .of_same rfl rfl

/-- Taking the most active variable draws nothing. -/
theorem continues_of_pickActive {n : Nat} {o : Option Var}
    (h : pickActive t n d = .ok (o, d')) : d.Continues d' := by
  obtain ⟨⟨queue, rfl⟩, -⟩ := exists_of_pickActive h
  exact .of_same rfl rfl

/-- One number decides whether a position is drawn, and a second one is the position. -/
theorem continues_of_pickRandom {o : Option Var} (h : d.pickRandom t = .ok (o, d')) :
    d.Continues d' := by
  have hchance := Continues.chance d d.settings.randomFreq
  simp only [pickRandom] at h
  split at h
  next =>
      simp only [bind_eq_ok] at h
      obtain ⟨v, -, b, -, h⟩ := h
      split at h
      all_goals
        simp only [pure_eq_ok, Prod.mk.injEq] at h
        obtain ⟨-, rfl⟩ := h
        exact hchance.trans ⟨rfl, 1, rfl⟩
  next =>
      simp only [pure_eq_ok, Prod.mk.injEq] at h
      exact h.2 ▸ hchance

/-- Picking a variable continues the sequence. -/
theorem continues_of_pickVar {o : Option Var} (h : d.pickVar t = .ok (o, d')) :
    d.Continues d' := by
  rcases pickVar_eq_ok.1 h with ⟨v, rfl, hrandom⟩ | ⟨d₁, hrandom, hactive⟩
  · exact continues_of_pickRandom hrandom
  · exact (continues_of_pickRandom hrandom).trans (continues_of_pickActive hactive)

/-- A pick continues the sequence. -/
theorem continues_of_pick {o : Option Lit} (h : d.pick t = .ok (o, d')) : d.Continues d' := by
  cases drawn_of_pick h with
  | listed hordered => exact continues_of_pickOrdered hordered
  | nothing hordered hvar =>
      exact (continues_of_pickOrdered hordered).trans (continues_of_pickVar hvar)
  | randomSide hordered hvar =>
      exact ((continues_of_pickOrdered hordered).trans (continues_of_pickVar hvar)).trans
        (.chance _ _)
  | knownSide hordered hvar =>
      exact (continues_of_pickOrdered hordered).trans (continues_of_pickVar hvar)

/-! ## Picking

The three stages of a pick are taken one after another. The first and the last are not refused since
the variables they look at are known; the second one is where the position is drawn. -/

/-- A known variable can be looked at. -/
theorem succeeds_eligible {v : Var} (hlt : v.index < t.varCount)
    (hv : (d.decides v).isSome = true) : Succeeds (d.eligible t v) := by
  obtain ⟨c, hc⟩ := Option.isSome_iff_exists.1 (by simpa [decides] using hv :
    (d.choices.get? v.index).isSome = true)
  refine succeeds_bind (Trail.succeeds_isUnset hlt) fun u _ => ?_
  split
  · exact succeeds_bind ⟨c, SparseTable.fetch_eq_ok.2 hc⟩ fun _ _ => succeeds_pure _
  · exact succeeds_pure _

/-- The caller's order can be gone through. -/
theorem succeeds_pickOrdered : ∀ {n : Nat} {d : Decisions}, d.Known →
    (∀ v, (d.decides v).isSome = true → v.index < t.varCount) → Succeeds (pickOrdered t n d) := by
  intro n
  induction n with
  | zero => exact fun _ _ => succeeds_pure _
  | succ n ih =>
      intro d hd hlt
      rw [pickOrdered]
      split
      next => exact succeeds_pure _
      next l hl =>
          have hl := hd.ordered l (List.mem_of_getElem? (by rwa [Array.getElem?_toList]))
          refine succeeds_bind (succeeds_eligible (hlt l.var hl) hl) fun b _ => ?_
          cases b with
          | true => exact succeeds_pure _
          | false => exact ih (hd.of_sub rfl (fun _ => id) rfl) hlt

/-- The queue can be emptied. -/
theorem succeeds_pickActive : ∀ {n : Nat} {d : Decisions}, d.queue.Listed → d.Known →
    (∀ v, (d.decides v).isSome = true → v.index < t.varCount) → Succeeds (pickActive t n d) := by
  intro n
  induction n with
  | zero => exact fun _ _ _ => succeeds_pure _
  | succ n ih =>
      intro d hl hd hlt
      rw [pickActive]
      split
      next => exact succeeds_pure _
      next v queue hpop =>
          obtain ⟨hlisted, hperm⟩ := VarHeap.pop_eq_some hl hpop
          have hv := hd.queued v (hperm.mem_iff.2 List.mem_cons_self)
          refine succeeds_bind (succeeds_eligible (d := { d with queue }) (hlt v hv) hv)
            fun b _ => ?_
          cases b with
          | true => exact succeeds_pure _
          | false =>
              exact ih (d := { d with queue }) hlisted (hd.of_sub rfl
                (fun u hu => hperm.mem_iff.2 (List.mem_cons_of_mem _ hu)) rfl) hlt

/-- A random position of the queue exists. -/
theorem succeeds_pickRandom (hd : d.Known)
    (hlt : ∀ v, (d.decides v).isSome = true → v.index < t.varCount) (hs : d.Steady) :
    Succeeds (d.pickRandom t) := by
  simp only [pickRandom]
  split
  next hyes =>
      simp only [Bool.and_eq_true, Bool.not_eq_true', VarHeap.isEmpty, ← Bool.not_eq_true,
        Array.isEmpty_iff_size_eq_zero] at hyes
      have hi := hs.position_lt hyes.1 (Nat.pos_of_ne_zero hyes.2)
      refine succeeds_bind (succeeds_fetch hi) fun v hv => ?_
      have hv := hd.queued v (List.mem_of_getElem? (by
        rw [Array.getElem?_toList]
        exact fetch_eq_ok.1 hv))
      refine succeeds_bind (succeeds_eligible (hlt v hv) hv) fun b _ => ?_
      cases b with
      | true => exact succeeds_pure _
      | false => exact succeeds_pure _
  next => exact succeeds_pure _

/-- A decision can be picked. -/
theorem succeeds_pick (hr : d.Ready t.Free)
    (hlt : ∀ v, (d.decides v).isSome = true → v.index < t.varCount) (hs : d.Steady) :
    Succeeds (d.pick t) := by
  refine succeeds_bind (succeeds_pickOrdered hr.known hlt) ?_
  rintro ⟨o, d₁⟩ hordered
  obtain ⟨hr₁, hd₁⟩ := pickOrdered_ready hordered hr
  -- the caller's order is gone through without a draw
  have hs₁ : d₁.Steady := by
    obtain ⟨⟨head, rfl⟩, -⟩ := exists_of_pickOrdered hordered
    exact hs
  cases o with
  | some l => exact succeeds_pure _
  | none =>
      have hvar : Succeeds (d₁.pickVar t) := by
        refine succeeds_bind (succeeds_pickRandom hr₁.known (hd₁ ▸ hlt) hs₁) ?_
        rintro ⟨o, d₂⟩ hrandom
        obtain ⟨hr₂, hd₂⟩ := pickRandom_ready hrandom hr₁
        cases o with
        | some v => exact succeeds_pure _
        | none => exact succeeds_pickActive hr₂.listed hr₂.known (hd₂ ▸ hd₁ ▸ hlt)
      refine succeeds_bind hvar ?_
      rintro ⟨o, d₂⟩ hpicked
      cases o with
      | none => exact succeeds_pure _
      | some v =>
          dsimp only
          split
          · exact succeeds_pure _
          -- the side of the variable can be looked up, since it is one to be decided
          · have hv : d₂.decides v = some true := by
              rw [(pickVar_ready hpicked hr₁).1]
              exact (free_of_pickVar hpicked).2
            obtain ⟨c, hc, -⟩ := Option.map_eq_some_iff.1 hv
            exact succeeds_bind ⟨c, SparseTable.fetch_eq_ok.2 hc⟩ fun _ _ => succeeds_pure _

end Decisions

end CardSat
