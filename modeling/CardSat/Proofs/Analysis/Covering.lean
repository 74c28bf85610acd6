import CardSat.Analysis
import CardSat.Proofs.Analysis.Marks

set_option autoImplicit false

/-! # Every variable keeps a mark

An analysis changes marks and takes none away, so a table with a mark for every variable stays
complete (`covers_of_analyze`, `covers_of_failedAssumptions`).

That the table is complete is why no mark is ever looked up in vain, and it has to be known again
after every analysis, whatever the trail looked like. So nothing is assumed here about constraints,
levels or reasons: the functions of the analysis are followed one by one, and in each of them a mark
is only ever replaced (`Marks.covers_of_set`).
-/

namespace CardSat

variable {store : Store} {t : Trail} {m m' : Marks} {n : Nat} {l : Lit} {h : Handle}

namespace Marks

/-- Setting a mark replaces one that is there. -/
theorem covers_of_set {v : Var} {x : Mark} (hc : m.Covers n) (hset : m.set v x = .ok m') :
    m'.Covers n := SparseTable.Covers.replace hc hset

/-- Clearing marks is setting them one after the other. -/
theorem covers_of_clearAll {lits : List Lit} (hc : m.Covers n)
    (hclear : m.clearAll lits = .ok m') : m'.Covers n :=
  foldlM_ok (fun _ (m : Marks) => m.Covers n) (fun _ _ _ _ hc hset => covers_of_set hc hset) hc
    hclear

end Marks

namespace Derivation

variable {d d' : Derivation}

/-- A literal that is taken is marked, or it is passed and nothing changes. -/
theorem covers_of_takeLit (hc : d.marks.Covers n) (ht : d.takeLit t l = .ok d') :
    d'.marks.Covers n := by
  simp only [takeLit, bind_eq_ok] at ht
  obtain ⟨_, -, ht⟩ := ht
  split at ht
  next => exact pure_eq_ok.1 ht ▸ hc
  next =>
      simp only [bind_eq_ok] at ht
      obtain ⟨_, -, ht⟩ := ht
      split at ht
      next => exact pure_eq_ok.1 ht ▸ hc
      next =>
          simp only [bind_eq_ok] at ht
          obtain ⟨marks, hset, ht⟩ := ht
          have hc' := Marks.covers_of_set hc hset
          split at ht
          next => exact pure_eq_ok.1 ht ▸ hc'
          next => exact pure_eq_ok.1 ht ▸ hc'

/-- Taking the antecedents of a constraint takes one literal after the other. -/
theorem covers_of_takeConstraint {skip : Bool} (hc : d.marks.Covers n)
    (ht : d.takeConstraint store t h skip = .ok d') : d'.marks.Covers n := by
  simp only [takeConstraint, bind_eq_ok] at ht
  obtain ⟨_, -, _, -, ht⟩ := ht
  exact foldlM_ok (b := { d with constraints := d.constraints.push h })
    (fun _ (d : Derivation) => d.marks.Covers n) (fun _ _ _ _ => covers_of_takeLit) hc ht

/-- The walk down the trail clears the mark of a literal and marks its antecedents. -/
theorem covers_of_resolve : ∀ {i : Nat} {d : Derivation}, d.marks.Covers n →
    d.resolve store t i = .ok (l, d') → d'.marks.Covers n := by
  intro i
  induction i with
  | zero =>
      intro d _ hr
      simp [resolve, throw_ne_ok] at hr
  | succ i ih =>
      intro d hc hr
      simp only [resolve, bind_eq_ok] at hr
      obtain ⟨_, -, _, -, hr⟩ := hr
      split at hr
      -- a literal without a mark is passed
      next => exact ih hc hr
      next =>
          simp only [bind_eq_ok] at hr
          obtain ⟨marks, hset, hr⟩ := hr
          have hc' := Marks.covers_of_set hc hset
          split at hr
          next =>
              obtain ⟨-, rfl⟩ := Prod.mk.inj (pure_eq_ok.1 hr)
              exact hc'
          next =>
              simp only [bind_eq_ok] at hr
              obtain ⟨_, -, hr⟩ := hr
              split at hr
              next => simp [throw_ne_ok] at hr
              next =>
                  simp only [bind_eq_ok] at hr
                  obtain ⟨d₁, htake, hr⟩ := hr
                  exact ih (covers_of_takeConstraint hc' htake) hr

end Derivation

/-! ## Redundant literals

The search is a recursion in which the marks are handed from one call to the next. The lemma on a
list of antecedents takes the recursive call as a hypothesis, and the induction on the depth
supplies it. -/

variable {p p' : Probe} {b : Bool}

/-- What a search notes of a literal replaces its mark, unless there is one already. -/
theorem Probe.covers_of_note {mark : Mark} (hc : p.marks.Covers n) (hn : p.note l mark = .ok p') :
    p'.marks.Covers n := by
  simp only [note, bind_eq_ok] at hn
  obtain ⟨_, -, hn⟩ := hn
  split at hn
  next =>
      simp only [bind_eq_ok, pure_eq_ok] at hn
      obtain ⟨marks, hset, rfl⟩ := hn
      exact Marks.covers_of_set hc hset
  next => exact pure_eq_ok.1 hn ▸ hc

/-- A search that goes through antecedents keeps the marks complete if it does so for each of
them. -/
theorem covers_of_allExplained {descend : Lit → Probe → Checked (Bool × Probe)}
    (hdescend : ∀ l p b p', p.marks.Covers n → descend l p = .ok (b, p') → p'.marks.Covers n) :
    ∀ {lits : List Lit} {p : Probe}, p.marks.Covers n →
      allExplained t descend lits p = .ok (b, p') → p'.marks.Covers n := by
  intro lits
  induction lits with
  | nil =>
      intro p hc ha
      obtain ⟨-, rfl⟩ := Prod.mk.inj (pure_eq_ok.1 ha)
      exact hc
  | cons l lits ih =>
      intro p hc ha
      simp only [allExplained, bind_eq_ok] at ha
      obtain ⟨_, -, _, -, ha⟩ := ha
      split at ha
      -- an antecedent that is known to be redundant needs no search
      next => exact ih hc ha
      next =>
          split at ha
          next =>
              obtain ⟨-, rfl⟩ := Prod.mk.inj (pure_eq_ok.1 ha)
              exact hc
          next =>
              simp only [bind_eq_ok] at ha
              obtain ⟨⟨b₁, p₁⟩, hd, ha⟩ := ha
              have hc₁ := hdescend l p b₁ p₁ hc hd
              cases b₁ with
              | true => exact ih hc₁ ha
              | false =>
                  obtain ⟨-, rfl⟩ := Prod.mk.inj (pure_eq_ok.1 ha)
                  exact hc₁

/-- The search for redundant literals keeps the marks complete, to whatever depth it goes. -/
theorem covers_of_redundantWithin : ∀ (depth : Nat) (l : Lit) (p : Probe) (b : Bool) (p' : Probe),
    p.marks.Covers n → redundantWithin store t depth l p = .ok (b, p') → p'.marks.Covers n := by
  intro depth
  induction depth with
  | zero =>
      intro l p b p' _ hr
      simp [redundantWithin, throw_ne_ok] at hr
  | succ depth ih =>
      intro l p b p' hc hr
      simp only [redundantWithin, bind_eq_ok] at hr
      obtain ⟨_, -, hr⟩ := hr
      split at hr
      next =>
          obtain ⟨-, rfl⟩ := Prod.mk.inj (pure_eq_ok.1 hr)
          exact hc
      next =>
          simp only [bind_eq_ok, pure_eq_ok, Prod.mk.injEq] at hr
          obtain ⟨_, -, _, -, ⟨_, p₁⟩, hall, p₂, hnote, -, rfl⟩ := hr
          exact Probe.covers_of_note (covers_of_allExplained ih hc hall) hnote

namespace Analysis

/-- So does leaving out redundant literals, which is one search after the other. -/
theorem covers_of_dropRedundant : ∀ {rest : List Lit} {kept ls : Array Lit} {p : Probe},
    p.marks.Covers n → dropRedundant store t rest kept p = .ok (ls, p') → p'.marks.Covers n := by
  intro rest
  induction rest with
  | nil =>
      intro kept ls p hc hd
      obtain ⟨-, rfl⟩ := Prod.mk.inj (pure_eq_ok.1 hd)
      exact hc
  | cons l rest ih =>
      intro kept ls p hc hd
      simp only [dropRedundant, bind_eq_ok] at hd
      obtain ⟨⟨b, p₁⟩, hred, hd⟩ := hd
      have hc₁ := covers_of_redundantWithin _ _ _ _ _ hc hred
      cases b with
      | true => exact ih hc₁ hd
      | false => exact ih hc₁ hd

/-- Minimisation ends by clearing marks; before that, only the deep mode makes any. -/
theorem covers_of_minimise {minimisation : Minimisation} {first : Lit} {rest : List Lit}
    {ls : Array Lit} (hc : m.Covers n)
    (hm : minimise minimisation store t m first rest = .ok (ls, m')) : m'.Covers n := by
  cases minimisation with
  | never =>
      simp only [minimise, bind_eq_ok, pure_eq_ok, Prod.mk.injEq] at hm
      obtain ⟨_, hclear, -, rfl⟩ := hm
      exact Marks.covers_of_clearAll hc hclear
  | basic =>
      simp only [minimise, bind_eq_ok, pure_eq_ok, Prod.mk.injEq] at hm
      obtain ⟨_, -, _, hclear, -, rfl⟩ := hm
      exact Marks.covers_of_clearAll hc hclear
  | deep =>
      simp only [minimise, bind_eq_ok, pure_eq_ok, Prod.mk.injEq] at hm
      obtain ⟨⟨_, p⟩, hdrop, _, hclear, -, rfl⟩ := hm
      exact Marks.covers_of_clearAll (covers_of_dropRedundant (p := ⟨m, []⟩) hc hdrop) hclear

variable {a a' : Analysis}

/-- The whole analysis of a conflict keeps the marks complete. -/
theorem covers_of_analyze {x : Explanation} (hc : a.marks.Covers n)
    (ha : a.analyze store t h = .ok (x, a')) : a'.marks.Covers n := by
  simp only [analyze] at ha
  split at ha
  next =>
      obtain ⟨-, rfl⟩ := Prod.mk.inj (pure_eq_ok.1 ha)
      exact hc
  next =>
      simp only [bind_eq_ok, pure_eq_ok, Prod.mk.injEq] at ha
      obtain ⟨d₀, htake, ⟨last, d⟩, hres, ⟨ls, marks⟩, hmin, _, -, -, rfl⟩ := ha
      exact covers_of_minimise (Derivation.covers_of_resolve
        (Derivation.covers_of_takeConstraint hc htake) hres) hmin

/-! ## Failed assumptions -/

/-- Tracing a literal back clears its mark, or passes it on to the antecedents. -/
theorem covers_of_traceLit {found found' : Array Lit} (hc : m.Covers n)
    (ht : traceLit store t (found, m) l = .ok (found', m')) : m'.Covers n := by
  simp only [traceLit, bind_eq_ok] at ht
  obtain ⟨_, -, ht⟩ := ht
  split at ht
  next =>
      obtain ⟨-, rfl⟩ := Prod.mk.inj (pure_eq_ok.1 ht)
      exact hc
  next =>
      simp only [bind_eq_ok] at ht
      obtain ⟨_, -, ht⟩ := ht
      split at ht
      next =>
          simp only [bind_eq_ok, pure_eq_ok, Prod.mk.injEq] at ht
          obtain ⟨_, hset, -, rfl⟩ := ht
          exact Marks.covers_of_set hc hset
      next =>
          simp only [bind_eq_ok, pure_eq_ok, Prod.mk.injEq] at ht
          obtain ⟨_, -, _, -, marks, hfold, _, hset, -, rfl⟩ := ht
          refine Marks.covers_of_set ?_ hset
          refine foldlM_ok (fun _ (m : Marks) => m.Covers n) (fun _ _ _ _ hc₁ hstep => ?_) hc hfold
          simp only [bind_eq_ok] at hstep
          obtain ⟨_, -, hstep⟩ := hstep
          split at hstep
          next => exact pure_eq_ok.1 hstep ▸ hc₁
          next => exact Marks.covers_of_set hc₁ hstep

/-- Looking for the assumptions to blame keeps the marks complete as well. -/
theorem covers_of_failedAssumptions {found : List Lit} (hc : a.marks.Covers n)
    (hf : a.failedAssumptions store t l = .ok (found, a')) : a'.marks.Covers n := by
  simp only [failedAssumptions] at hf
  split at hf
  next =>
      obtain ⟨-, rfl⟩ := Prod.mk.inj (pure_eq_ok.1 hf)
      exact hc
  next =>
      simp only [bind_eq_ok, pure_eq_ok, Prod.mk.injEq] at hf
      obtain ⟨m₀, hset, ⟨_, m₁⟩, hfold, m₂, hset', -, rfl⟩ := hf
      refine Marks.covers_of_set ?_ hset'
      exact foldlM_ok (fun _ (x : Array Lit × Marks) => x.2.Covers n)
        (fun _ _ _ _ => covers_of_traceLit) (Marks.covers_of_set hc hset) hfold

end Analysis

end CardSat
