import CardSat.Proofs.Engine.Steps
import CardSat.Proofs.Engine.Turns
import CardSat.Proofs.Network.Complete
import CardSat.Proofs.Trail.Decisions
import CardSat.Proofs.Trail.Model

set_option autoImplicit false

/-! # Choosing decisions

The levels above the one on which a search begins belong to the assumptions first, one to each
(`Assuming`): a literal without a reason on one of these levels is an assumption, and the assumption
a level belongs to is true from that level on. So the decisions that a false assumption follows from
are assumptions, or were there before, and when nothing is left to decide the assumptions that had a
level to themselves are true.

## Levels that were open before

A caller may have opened levels before the search. The search takes them for levels of assumptions,
although no assumption was looked at there. So the invariant is about the levels above those of the
trail `t₀` on which the search began, and what is said of a core is said with the decisions of `t₀`
among the assumptions (`Engine.IsCore` is applied to `as.toList ++ e.trail.decisions`). With no
level open both come down to the assumptions.
-/

namespace CardSat

/-- The first levels belong to the assumptions, apart from those that are open in `t₀`. -/
structure Assuming (t₀ t : Trail) (as : Array Lit) : Prop where
  decided : ∀ d ∈ t, 0 < t.levelOf d.var → t.levelOf d.var ≤ as.size →
    t.reasonOf d.var = none → d ∈ as.toList ∨ d ∈ t₀.decisions
  placed : ∀ i p, as[i]? = some p → t₀.level ≤ i → i < t.level → p ∈ t ∧ t.levelOf p.var ≤ i + 1

namespace Assuming

variable {t₀ t t' : Trail} {as : Array Lit} {l : Lit}

/-- No assumption has a level yet. -/
theorem start (t : Trail) (as : Array Lit) : Assuming t t as where
  decided d hd hpos _ hr := Or.inr (Trail.mem_decisions.2 ⟨hd, hpos, hr⟩)
  placed i p _ hle hi := by omega

/-- At the ground level there is nothing to show. -/
theorem of_ground (hv : t.Valid) (h : t.level = 0) (as : Array Lit) : Assuming t₀ t as where
  decided d hd hpos := by
    have := hv.levelOf_le hd
    omega
  placed i p _ _ hi := by omega

/-- Conclusions are drawn on the current level. -/
theorem extends_ (ha : Assuming t₀ t as) (hx : t.Extends t')
    (hforced : ∀ m ∈ t', m ∈ t ∨ ∃ a, t'.reasonOf m.var = some a) : Assuming t₀ t' as where
  decided d hd hpos hle hr := by
    rcases hforced d hd with hdt | ⟨a, hra⟩
    · rw [hx.levelOf hdt] at hpos hle
      exact ha.decided d hdt hpos hle (hx.reasonOf hdt ▸ hr)
    · rw [hr] at hra
      cases hra
  placed i p hp hle hi := by
    obtain ⟨hm, hlev⟩ := ha.placed i p hp hle (hx.level_eq ▸ hi)
    exact ⟨hx.mem hm, (hx.levelOf hm).symm ▸ hlev⟩

/-- Going back keeps the levels that are left. -/
theorem rewind (ha : Assuming t₀ t as) (hv : t.Valid) (b : Nat) :
    Assuming t₀ (t.rewind b).2 as where
  decided d hd hpos hle hr := by
    rw [Trail.levelOf_rewind] at hpos hle
    rw [Trail.reasonOf_rewind hv hd] at hr
    exact ha.decided d ((Trail.mem_rewind hv).1 hd).1 hpos hle hr
  placed i p hp hle hi := by
    have hlevel := Trail.level_rewind t b
    obtain ⟨hm, hlev⟩ := ha.placed i p hp hle (by omega)
    rw [Trail.levelOf_rewind]
    exact ⟨(Trail.mem_rewind hv).2 ⟨hm, by omega⟩, hlev⟩

/-- A level may be opened for an assumption that is true already. -/
theorem openLevel (ha : Assuming t₀ t as) (hv : t.Valid)
    (hp : ∀ p, as[t.level]? = some p → p ∈ t) : Assuming t₀ t.openLevel as where
  decided := ha.decided
  placed i p hpi hle hi := by
    rw [Trail.level_openLevel] at hi
    rcases Nat.lt_or_ge i t.level with hlt | hge
    · exact ha.placed i p hpi hle hlt
    · obtain rfl : i = t.level := by omega
      have hm := hp p hpi
      exact ⟨hm, Nat.le_succ_of_le (hv.levelOf_le hm)⟩

/-- While assumptions are left the next one is decided. -/
theorem decide (ha : Assuming t₀ t as) (hv : t.Valid) (hasg : t.openLevel.Assigned l none t')
    (hl : ∀ p, as[t.level]? = some p → p = l) : Assuming t₀ t' as where
  decided d hd hpos hle hr := by
    have hvo := Trail.valid_openLevel hv
    rcases hasg.mem_iff.1 hd with hdt | rfl
    · rw [hasg.levelOf_of_mem hvo hdt] at hpos hle
      rw [hasg.reasonOf_of_mem hvo hdt] at hr
      exact ha.decided d hdt hpos hle hr
    · rw [hasg.levelOf_self, Trail.level_openLevel] at hle
      have hlt : t.level < as.size := hle
      have := hl as[t.level] (Array.getElem?_eq_getElem hlt)
      exact Or.inl (this ▸ Array.getElem_mem_toList hlt)
  placed i p hpi hle hi := by
    have hvo := Trail.valid_openLevel hv
    rw [hasg.level_eq, Trail.level_openLevel] at hi
    -- the new level belongs to the assumption that is next
    rcases Nat.lt_or_ge i t.level with hlt | hge
    · obtain ⟨hm, hlev⟩ := ha.placed i p hpi hle hlt
      exact ⟨hasg.mem_iff.2 (Or.inl hm), (hasg.levelOf_of_mem hvo hm).symm ▸ hlev⟩
    · obtain rfl : i = t.level := by omega
      obtain rfl := hl p hpi
      refine ⟨hasg.mem_iff.2 (Or.inr rfl), Nat.le_of_eq ?_⟩
      rw [hasg.levelOf_self, Trail.level_openLevel]

end Assuming

/-- Some assumptions that no world of interest makes true together. -/
structure IsCore (R : World → Prop) (as core : List Lit) : Prop where
  sub : ∀ l ∈ core, l ∈ as
  refuted : ∀ w, R w → ¬ ∀ l ∈ core, l.holds w = true

namespace Engine

variable {e e' : Engine} {R : World → Prop} {good : Prop} {as : Array Lit}

/-- A state of the search between two steps; `e` is the one that the search began with. -/
structure Searching (R : World → Prop) (good : Prop) (as : Array Lit) (e e' : Engine) : Prop where
  reaches : e.Reaches R e'
  assuming : Assuming e.trail e'.trail as
  watching : good → e'.Watching

/-- The decisions that a false assumption follows from are assumptions, or older. -/
theorem isCore_of_failedAssumptions {t₀ : Trail} {p : Lit} {a : Analysis} {found : List Lit}
    (hf : e.Fit R) (has : Assuming t₀ e.trail as) (hp : as[e.trail.level]? = some p)
    (hno : p.neg ∈ e.trail)
    (h : e.analysis.failedAssumptions e.store e.trail p.neg = .ok (found, a)) :
    a.marks.Clean ∧ found ≠ [] ∧ IsCore R (as.toList ++ t₀.decisions) (found.map Lit.neg) := by
  obtain ⟨hclean, ds, rfl, hb⟩ :=
    Analysis.blamed_of_failedAssumptions hf.sane.justified hf.sound hf.clean hno h
  have hlevel : e.trail.level < as.size := (Array.getElem?_eq_some_iff.1 hp).1
  have hpa : p ∈ as.toList := Array.mem_toList_iff.2 (Array.mem_of_getElem? hp)
  have hcore : (p.neg :: ds.map Lit.neg).map Lit.neg = p :: ds := by
    simp [Function.comp_def]
  refine ⟨hclean, List.cons_ne_nil _ _, ?_⟩
  rw [hcore]
  refine ⟨fun l hl => ?_, fun w hw hall => ?_⟩
  · rw [List.mem_append]
    rcases List.mem_cons.1 hl with rfl | hl
    · exact Or.inl hpa
    · obtain ⟨hlt, hpos, hr⟩ := hb.decided l hl
      have hle : e.trail.levelOf l.var ≤ e.trail.level := hf.sane.trail.levelOf_le hlt
      exact has.decided l hlt hpos (by omega) hr
  -- the blamed decisions imply the negation of the assumption that failed
  · have hpn := hb.implies w hw fun d hd => hall d (List.mem_cons_of_mem _ hd)
    rw [Lit.holds_neg, hall p (List.mem_cons_self ..)] at hpn
    cases hpn

/-! ## One choice -/

/-- What a choice comes to. A decision still has to be made: its variable may have left the
queue, and everything else is as in a state `e₁` of the search. -/
def Chosen (R : World → Prop) (good : Prop) (as : Array Lit) (e e' : Engine) :
    Choosing → Prop
  | .failed core => Searching R good as e e' ∧ e'.Idle ∧ core ≠ [] ∧
      IsCore R (as.toList ++ e.trail.decisions) core
  | .complete => Searching R good as e e' ∧ e'.Idle ∧ as.size ≤ e'.trail.level ∧
      ∀ v, e'.trail.Free v → e'.decisions.decides v ≠ some true
  | .decide l => ∃ e₁ d k, Searching R good as e e₁ ∧ e₁.Idle ∧
      e' = { e₁ with decisions := d, decided := k } ∧ d.decides = e₁.decisions.decides ∧
      d.Ready (fun v => e₁.trail.Free v ∧ v ≠ l.var) ∧
      ∀ p, as[e₁.trail.level]? = some p → p = l

variable {e₀ : Engine}

/-- A level without a literal is opened for an assumption that is true already. -/
theorem Searching.openLevel (hs : Searching R good as e₀ e) (hidle : e.Idle)
    (hp : ∀ p, as[e.trail.level]? = some p → p ∈ e.trail) :
    Searching R good as e₀
      { e with network := { e.network with trail := e.trail.openLevel } } where
  reaches := hs.reaches.trans (reaches_of_openLevel hs.reaches.fit hidle)
  assuming := hs.assuming.openLevel hs.reaches.fit.sane.trail hp
  watching hg := (hs.watching hg).openLevel

/-- Going through the assumptions ends with one that is false, one without a value, or all of them
in place. -/
theorem chosen_of_chooseAssumption : ∀ {n : Nat} {e : Engine} {o : Option Choosing},
    Searching R good as e₀ e → e.Idle → as.size ≤ e.trail.level + n →
    chooseAssumption as n e = .ok (o, e') →
    (o = none → Searching R good as e₀ e' ∧ e'.Idle ∧ as.size ≤ e'.trail.level) ∧
      ∀ c, o = some c → Chosen R good as e₀ e' c := by
  -- `n` levels suffice for the assumptions that have none yet
  intro n
  induction n with
  | zero =>
      intro e o hs hidle hn h
      simp only [chooseAssumption, pure_eq_ok, Prod.mk.injEq] at h
      obtain ⟨rfl, rfl⟩ := h
      exact ⟨fun _ => ⟨hs, hidle, hn⟩, by simp⟩
  | succ n ih =>
      intro e o hs hidle hn h
      have hv : e.trail.Valid := hs.reaches.fit.sane.trail
      simp only [chooseAssumption] at h
      split at h
      next hnone =>
          simp only [pure_eq_ok, Prod.mk.injEq] at h
          obtain ⟨rfl, rfl⟩ := h
          exact ⟨fun _ => ⟨hs, hidle, Array.getElem?_eq_none_iff.1 hnone⟩, by simp⟩
      next p hp =>
          simp only [bind_eq_ok, Trail.value_eq_ok] at h
          obtain ⟨x, ⟨-, rfl⟩, h⟩ := h
          split at h
          next hyes =>
              refine ih (hs.openLevel hidle fun q hq => ?_) hidle ?_ h
              · obtain rfl := Option.some.inj (hp.symm.trans hq)
                exact (hv.truth_yes p).1 hyes
              · rw [trail, Trail.level_openLevel]
                have hn' : as.size ≤ e.network.trail.level + (n + 1) := hn
                omega
          next hno =>
              simp only [bind_eq_ok, pure_eq_ok, Prod.mk.injEq] at h
              obtain ⟨⟨found, a⟩, hfound, rfl, rfl⟩ := h
              obtain ⟨hclean, hne, hcore⟩ := isCore_of_failedAssumptions hs.reaches.fit hs.assuming
                hp ((hv.truth_no p).1 hno) hfound
              refine ⟨by simp, fun c hc => ?_⟩
              obtain rfl := Option.some.inj hc
              have hf := hs.reaches.fit
              have hreach : e.Reaches R { e with analysis := a } :=
                .of_same rfl rfl (.refl _) (.refl _) (fun _ hl hlev => ⟨hl, hlev⟩) rfl
                  ⟨hf.sane, hf.sound, hf.units, hf.listed, hf.ready, hclean,
                    Analysis.covers_of_failedAssumptions hf.marked hfound⟩
              exact ⟨⟨hs.reaches.trans hreach, hs.assuming, hs.watching⟩, hidle,
                by simpa using hne, hcore⟩
          next hunset =>
              simp only [pure_eq_ok, Prod.mk.injEq] at h
              obtain ⟨rfl, rfl⟩ := h
              refine ⟨by simp, fun c hc => ?_⟩
              obtain rfl := Option.some.inj hc
              refine ⟨e, e.decisions, e.decided, hs, hidle, rfl, rfl,
                hs.reaches.fit.ready.mono fun v hv => hv.1, fun q hq => ?_⟩
              exact Option.some.inj (hq.symm.trans hp)

/-- What a search chooses is what `Chosen` says. -/
theorem chosen_of_choose {c : Choosing} (hs : Searching R good as e₀ e) (hidle : e.Idle)
    (h : e.choose as = .ok (c, e')) : Chosen R good as e₀ e' c := by
  cases chooses_of_choose h with
  | assumed hassumed =>
      exact (chosen_of_chooseAssumption hs hidle (by omega) hassumed).2 c rfl
  | @complete e₁ d hassumed hpick =>
      obtain ⟨hs₁, hidle₁, hlevel⟩ :=
        (chosen_of_chooseAssumption hs hidle (by omega) hassumed).1 rfl
      have hf := hs₁.reaches.fit
      obtain ⟨hdec, -, hcomplete⟩ := Decisions.pick_ready hpick hf.ready
      obtain ⟨hr, hall⟩ := hcomplete rfl
      -- popping the queue to its end changes the decisions only
      have hreach : e₁.Reaches R { e₁ with decisions := d } :=
        .of_same rfl rfl (.refl _) (.refl _) (fun _ hl hlev => ⟨hl, hlev⟩) hdec
          ⟨hf.sane, hf.sound, hf.units, hf.listed, hr, hf.clean, hf.marked⟩
      refine ⟨⟨hs₁.reaches.trans hreach, hs₁.assuming, hs₁.watching⟩, hidle₁, hlevel,
        fun v hv => ?_⟩
      show d.decides v ≠ some true
      rw [hdec]
      exact hall v hv
  | @decide e₁ d l hassumed hpick =>
      obtain ⟨hs₁, hidle₁, hlevel⟩ :=
        (chosen_of_chooseAssumption hs hidle (by omega) hassumed).1 rfl
      obtain ⟨hdec, hready, -⟩ := Decisions.pick_ready hpick hs₁.reaches.fit.ready
      refine ⟨e₁, d, e₁.decided + 1, hs₁, hidle₁, rfl, hdec, hready l rfl, fun p hp => ?_⟩
      have hlt := (Array.getElem?_eq_some_iff.1 hp).1
      omega

/-- Making the decision. -/
theorem searching_of_decideLit {l : Lit} (hc : Chosen R good as e₀ e (.decide l))
    (h : e.decideLit l = .ok e') : Searching R good as e₀ e' := by
  obtain ⟨e₁, d, k, hs, hidle, rfl, hdec, hready, hl⟩ := hc
  obtain ⟨t, ht, rfl⟩ := decideLit_eq_ok.1 h
  have hdecide : e₁.decideLit l = .ok { e₁ with network := { e₁.network with trail := t } } :=
    decideLit_eq_ok.2 ⟨t, ht, rfl⟩
  obtain ⟨hr, hasg, hw⟩ := reaches_of_decideLit hs.reaches.fit hidle hdecide
  have hv := hs.reaches.fit.sane.trail
  have hf := hr.fit
  have hasg' : e₁.trail.openLevel.Assigned l none t := hasg
  have hreach : Reaches R { e₁ with network := { e₁.network with trail := t } } { e₁ with
      network := { e₁.network with trail := t }, decisions := d, decided := k } := by
    refine .of_same rfl rfl (.refl _) (.refl _) (fun _ hl hlev => ⟨hl, hlev⟩) hdec
      ⟨hf.sane, hf.sound, hf.units, hf.listed, hready.mono fun v hfree => ?_, hf.clean,
        hf.marked⟩
    -- the decided variable may be missing in the queue, but it has a value now
    refine ⟨hfree.of_subset hv hf.sane.trail hasg'.varCount
      fun m hm => hasg'.mem_iff.2 (Or.inl hm), ?_⟩
    rintro rfl
    exact ((Trail.free_iff hf.sane.trail).1 hfree).2 l (hasg'.mem_iff.2 (Or.inr rfl)) rfl
  exact ⟨(hs.reaches.trans hr).trans hreach, hs.assuming.decide hv hasg' hl,
    fun hg => hw (hs.watching hg)⟩

end Engine

end CardSat
