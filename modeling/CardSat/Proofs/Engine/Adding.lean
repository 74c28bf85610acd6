import CardSat.Proofs.Engine.Orderly
import CardSat.Proofs.Engine.Remainder
import CardSat.Proofs.Engine.Storing
import CardSat.Proofs.Engine.Thinning

set_option autoImplicit false

/-! # Adding to the problem

What a constraint adds to a problem is described by the worlds in which it holds (`Engine.Adds`):
afterwards the problem is what it was and these worlds, or there is no world left. A constraint is
reduced before it is stored by what is known at the ground level, so it holds where its remainder
does and the problem holds already.

## How the proof goes

Adding a constraint comes down to one of a few things, and there is one lemma about `Adds` for each
of them: the constraint follows already (`Adds.of_implied`), it contradicts the problem
(`Adds.of_refuted`), it is stored (`Adds.of_gives`), or it forces literals, which become facts and
are propagated (`Adds.of_propagateFacts`). Which of them happens is read off the operation once,
into a relation with a constructor for each case (`Reduced` for clauses, `Bounded` for at-most
constraints), so the theorems about adding are case splits with one lemma to each case.
-/

namespace CardSat

namespace Engine

variable {e e' e₁ : Engine} {R news : World → Prop} {good : Prop} {b : Bool} {l : Lit}
  {lits : List Lit}

/-! ## What adding does -/

/-- An engine that rested takes in something that holds in the worlds of `news`; the answer `b`
is whether there may be a world left. -/
structure Adds (news : World → Prop) (good : Prop) (e : Engine) (b : Bool) (e' : Engine) :
    Prop where
  fit : e'.Fit fun w => e.Problem w ∧ news w
  saturated : e'.Fit e'.Problem
  evolves : e.Evolves e'
  varCount : e'.trail.varCount = e.trail.varCount
  decides : e'.decisions.decides = e.decisions.decides
  ground : e'.trail.level = 0
  refuted : b = false → ∀ w, e.Problem w → ¬ news w
  news : b = true → ∀ w, e'.Problem w → news w
  idle : b = true → e'.Idle
  placed : b = true → e'.Placed
  watching : b = true → good → e'.Watching
  orderly : e.Orderly → e'.Orderly

namespace Adds

/-- The new problem. -/
theorem problem_iff (h : Adds news good e true e') {w : World} :
    e'.Problem w ↔ e.Problem w ∧ news w :=
  ⟨fun hw => ⟨h.evolves.problem w hw, h.news rfl w hw⟩, fun hw => h.fit.problem hw⟩

/-- An engine to which a constraint could be added is at rest. -/
theorem resting (h : Adds news good e true e') : e'.Resting good :=
  ⟨h.fit.anti fun _ => h.problem_iff.1, h.ground, h.idle rfl, h.placed rfl, h.watching rfl⟩

/-- Nothing has to be done for what holds anyway. -/
theorem of_implied (hr : e.Resting good) (hnews : ∀ w, e.Problem w → news w) :
    Adds news good e true e where
  fit := hr.fit.anti fun _ => And.left
  saturated := hr.fit
  evolves := .refl e
  varCount := rfl
  decides := rfl
  ground := hr.ground
  refuted := by simp
  news _ := hnews
  idle _ := hr.idle
  placed _ := hr.placed
  watching _ := hr.watching
  orderly := id

/-- Nothing is done about what contradicts the problem. -/
theorem of_refuted (hr : e.Resting good) (hnews : ∀ w, e.Problem w → ¬ news w) :
    Adds news good e false e where
  fit := hr.fit.anti fun _ => And.left
  saturated := hr.fit
  evolves := .refl e
  varCount := rfl
  decides := rfl
  ground := hr.ground
  refuted _ := hnews
  news := by simp
  idle := by simp
  placed := by simp
  watching := by simp
  orderly := id

/-- Steps that leave the problem alone may come before. -/
theorem after (hr : e.Reaches e.Problem e₁) (ho : e.Orderly → e₁.Orderly)
    (h : Adds news good e₁ b e') : Adds news good e b e' where
  fit := h.fit.anti fun _ hw => ⟨hr.fit.problem hw.1, hw.2⟩
  saturated := h.saturated
  evolves := hr.evolves.trans h.evolves
  varCount := h.varCount.trans hr.varCount
  decides := h.decides.trans hr.decides
  ground := h.ground
  refuted hb w hw := h.refuted hb w (hr.fit.problem hw)
  news := h.news
  idle := h.idle
  placed := h.placed
  watching := h.watching
  orderly h₀ := h.orderly (ho h₀)

/-- A constraint is stored of which no watched literal has a value. -/
theorem of_gives {c : Constraint} (hr : e.Resting good)
    (hg : Gives (fun w => e.Problem w ∧ news w) e e' c)
    (hkeys : ∀ key ∈ c.keys, key ∉ e.trail)
    (hnews : ∀ w, e.Problem w → c.holds w = true → news w) (ho : e.Orderly → e'.Orderly) :
    Adds news good e true e' where
  fit := hg.fit
  saturated := hg.fit.anti fun w hw =>
    ⟨hg.evolves.problem w hw, hnews w (hg.evolves.problem w hw) (hg.holds w hw)⟩
  evolves := hg.evolves
  varCount := congrArg Trail.varCount hg.trail
  decides := hg.decides
  ground := hg.trail ▸ hr.ground
  refuted := by simp
  news _ w hw := hnews w (hg.evolves.problem w hw) (hg.holds w hw)
  idle _ := by
    rw [Idle, hg.trail]
    exact hr.idle
  placed _ := fun l hl => hg.trail ▸ hr.placed l (hg.units ▸ hl)
  watching _ hgood := hg.watching hkeys (hr.watching hgood)
  orderly := ho

/-- Facts are assigned and propagated. -/
theorem of_propagateFacts (hr : e.Resting good)
    (hreach : e.Reaches (fun w => e.Problem w ∧ news w) e₁) (hground : e₁.trail.level = 0)
    (hw : good → e₁.Watching) (hnews : ∀ w, e₁.Problem w → news w) (ho : e.Orderly → e₁.Orderly)
    (h : e₁.propagateFacts = .ok (b, e')) : Adds news good e b e' := by
  simp only [propagateFacts, bind_eq_ok, pure_eq_ok, Prod.mk.injEq] at h
  obtain ⟨⟨failed, e₂⟩, hprop, rfl, rfl⟩ := h
  have hp := propagated_of_propagate hreach.fit hw hprop
  have hall := hreach.trans hp.reaches
  have hground₂ : e₂.trail.level = 0 := hp.longer.level_eq.trans hground
  have hnews₂ : ∀ w, e₂.Problem w → news w := fun w hw =>
    hnews w (hp.reaches.evolves.problem w hw)
  refine ⟨hall.fit, hall.fit.anti fun w hw => ⟨hall.evolves.problem w hw, hnews₂ w hw⟩,
    hall.evolves, hall.varCount, hall.decides, hground₂, fun hb w hw hn => ?_,
    fun _ => hnews₂, fun _ => hp.idle,
    fun _ => hall.placed hr.placed, fun hb => hp.watching (by simpa using hb),
    fun h₀ => orderly_of_propagate hreach.fit (ho h₀) hprop⟩
  cases failed with
  | none => cases hb
  | some a => exact hp.absurd hground₂ w ⟨hw, hn⟩

end Adds

/-! ## Clauses -/

/-- A clause without true literals means what its literals without values mean. -/
theorem clauseHolds_left (hr : e.Resting good) {left : List Lit}
    (hleft : ∀ m, m ∈ left ↔ m ∈ lits ∧ m.neg ∉ e.trail) {w : World} (hw : e.Problem w) :
    w.clauseHolds left = true ↔ w.clauseHolds lits = true := by
  rw [World.clauseHolds_iff, World.clauseHolds_iff]
  refine exists_congr fun m => and_congr_left fun hmw => ?_
  rw [hleft, and_iff_left]
  intro hneg
  have := hr.holds hw _ hneg
  rw [Lit.holds_neg, hmw] at this
  cases this

/-- The literals of a list that are not known to be false. -/
theorem mem_left (hv : e.trail.Valid) {left : List Lit}
    (h : ((Lit.sortDistinct lits).filterM fun l => do return !(← e.trail.isFalse l)) = .ok left) :
    left = (Lit.sortDistinct lits).filter (fun l => !decide (e.trail.truth l = .no)) ∧
      (∀ m, m ∈ left ↔ m ∈ lits ∧ m.neg ∉ e.trail) ∧
      ∀ m ∈ lits, m.var.index < e.trail.varCount := by
  have heq := filterM_ok (p := fun l => !decide (e.trail.truth l = .no)) (fun a _ r hr => by
    simp only [bind_eq_ok, pure_eq_ok] at hr
    obtain ⟨x, hx, rfl⟩ := hr
    rw [(Trail.isFalse_eq_ok hx).2]) h
  refine ⟨heq, fun m => ?_, fun m hm => ?_⟩
  · rw [heq, List.mem_filter, Lit.mem_sortDistinct]
    simp [hv.truth_no]
  · obtain ⟨r, hr⟩ := filterM_tested h m (Lit.mem_sortDistinct.2 hm)
    simp only [bind_eq_ok, pure_eq_ok] at hr
    obtain ⟨x, hx, -⟩ := hr
    exact (Trail.isFalse_eq_ok hx).1

/-- What is left of a clause without complementary neighbours has every variable only once. -/
theorem nodup_left {left : List Lit} (hv : e.trail.Valid)
    (h : ((Lit.sortDistinct lits).filterM fun l => do return !(← e.trail.isFalse l)) = .ok left)
    (hpair : complementaryNeighbours left = false) : (left.map Lit.var).Nodup := by
  have hsorted : left.Pairwise fun a b => a.index < b.index :=
    (mem_left hv h).1 ▸ (Lit.pairwise_sortDistinct lits).filter _
  exact nodup_vars hsorted hpair

/-- A clause of unassigned literals is stored, and adds what it says. -/
theorem adds_of_storeClause {left : List Lit} (hr : e.Resting good) (htwo : 2 ≤ left.length)
    (hdistinct : (left.map Lit.var).Nodup)
    (hknown : ∀ m ∈ left, m.var.index < e.trail.varCount) (hunset : ∀ m ∈ left, m.neg ∉ e.trail)
    (hsame : ∀ w, e.Problem w → (w.clauseHolds left = true ↔ news w))
    (h : e.storeClause left = .ok e') : Adds news good e true e' := by
  simp only [storeClause, bind_eq_ok] at h
  obtain ⟨⟨a, db, store⟩, hadd, hwatch⟩ := h
  have hholds : ∀ w, (⟨.clause, left.toArray⟩ : Constraint).holds w = w.clauseHolds left :=
    fun _ => rfl
  have hwf : (⟨.clause, left.toArray⟩ : Constraint).WellFormed e.trail.varCount :=
    ⟨hdistinct, hknown, by simpa [Constraint.size] using htwo, by simp⟩
  have hk : ∀ x k, Kind.clause ≠ .learnt x k := fun _ _ hk => by cases hk
  have hg := gives_of_addGiven (R := fun w => e.Problem w ∧ news w) (hr.fit.anti fun _ => And.left)
    hk hwf (fun w hw => (hsame w hw.1).2 hw.2) hadd hwatch
  refine .of_gives hr hg (fun key hkey hmem => ?_) (fun w hw hc => (hsame w hw).1 hc)
    fun ho => orderly_of_addGiven hr.fit ho hk hwf hadd hwatch
  have hkey' := Constraint.mem_of_mem_watchedLits ((Constraint.mem_keys_clause rfl).1 hkey)
  exact hunset key.neg hkey' (by rwa [Lit.neg_neg])

/-- What becomes of a clause, of whose literals those in `left` are not false. -/
inductive Reduced (e : Engine) (left : List Lit) : Bool → Engine → Prop
  | tautology {l : Lit} (hl : l ∈ left) (hneg : l.neg ∈ left) : Reduced e left true e
  | satisfied {l : Lit} (hl : l ∈ left) (htrue : l ∈ e.trail) : Reduced e left true e
  | falsified (hleft : left = []) : Reduced e left false e
  | fact {l : Lit} {b : Bool} {e₁ e' : Engine} (hleft : left = [l]) (hfact : e.addFact l = .ok e₁)
      (hprop : e₁.propagateFacts = .ok (b, e')) : Reduced e left b e'
  | stored {e' : Engine} (htwo : 2 ≤ left.length) (hdistinct : (left.map Lit.var).Nodup)
      (hunset : ∀ l ∈ left, l ∉ e.trail) (hstore : e.storeClause left = .ok e') :
      Reduced e left true e'

/-- Every clause that is added is treated in one of the five ways. -/
theorem reduced_of_addReduced (hv : e.trail.Valid) (h : e.addReduced lits = .ok (b, e')) :
    ∃ left, (∀ m, m ∈ left ↔ m ∈ lits ∧ m.neg ∉ e.trail) ∧
      (∀ m ∈ lits, m.var.index < e.trail.varCount) ∧ Reduced e left b e' := by
  simp only [addReduced, bind_eq_ok] at h
  obtain ⟨left, hleft, sat, hsat, h⟩ := h
  obtain ⟨-, hmem, hknown⟩ := mem_left hv hleft
  have hany := anyM_ok (p := fun l => decide (e.trail.truth l = .yes))
    (fun a _ r hr => (Trail.isTrue_eq_ok hr).2) hsat
  refine ⟨left, hmem, hknown, ?_⟩
  split at h
  next hcond =>
      obtain ⟨rfl, rfl⟩ := Prod.mk.inj (pure_eq_ok.1 h)
      -- the list is sorted, so complementary literals are neighbours
      rcases Bool.or_eq_true_iff.1 hcond with hpair | rfl
      · obtain ⟨l, hl, hneg⟩ := exists_complementary hpair
        exact .tautology hl hneg
      · obtain ⟨l, hl, htrue⟩ := List.any_eq_true.1 hany.symm
        exact .satisfied hl ((hv.truth_yes l).1 (of_decide_eq_true htrue))
  next hcond =>
      rw [Bool.or_eq_true, not_or, Bool.not_eq_true, Bool.not_eq_true] at hcond
      obtain ⟨hpair, rfl⟩ := hcond
      have hunset : ∀ l ∈ left, l ∉ e.trail := fun l hl htrue =>
        List.any_eq_false.1 hany.symm l hl (decide_eq_true ((hv.truth_yes l).2 htrue))
      split at h
      next =>
          obtain ⟨rfl, rfl⟩ := Prod.mk.inj (pure_eq_ok.1 h)
          exact .falsified rfl
      next l =>
          obtain ⟨e₁, hfact, hprop⟩ := bind_eq_ok.1 h
          exact .fact rfl hfact hprop
      next hnil hsingle =>
          simp only [bind_eq_ok, pure_eq_ok, Prod.mk.injEq] at h
          obtain ⟨e₁, hstore, rfl, rfl⟩ := h
          exact .stored (two_le_length hnil hsingle) (nodup_left hv hleft hpair) hunset hstore

/-- A clause is added to the problem as what is left of it. -/
theorem adds_of_addReduced (hr : e.Resting good) (h : e.addReduced lits = .ok (b, e')) :
    Adds (fun w => w.clauseHolds lits = true) good e b e' := by
  obtain ⟨left, hmem, hknown, hred⟩ := reduced_of_addReduced hr.fit.sane.trail h
  have hsame : ∀ w, e.Problem w → (w.clauseHolds left = true ↔ w.clauseHolds lits = true) :=
    fun w => clauseHolds_left hr hmem
  cases hred with
  | @tautology l hl hneg =>
      refine .of_implied hr fun w hw => (hsame w hw).1 ((World.clauseHolds_iff _ _).2 ?_)
      cases hlw : l.holds w with
      | true => exact ⟨l, hl, hlw⟩
      | false => exact ⟨l.neg, hneg, by simp [hlw]⟩
  | @satisfied l hl htrue =>
      exact .of_implied hr fun w hw => (hsame w hw).1
        ((World.clauseHolds_iff _ _).2 ⟨l, hl, hr.holds hw l htrue⟩)
  | falsified hleft =>
      subst hleft
      exact .of_refuted hr fun w hw hc => absurd ((hsame w hw).2 hc) (by simp [World.clauseHolds])
  | @fact l _ e₁ _ hleft hfact hprop =>
      subst hleft
      -- one literal is left, which becomes a fact
      have hone : ∀ w : World, w.clauseHolds [l] = l.holds w := fun w => by
        simp [World.clauseHolds]
      obtain ⟨hr₁, ha, hw₁, hunits⟩ := reaches_of_fact
        (R := fun w => e.Problem w ∧ w.clauseHolds lits = true)
        (hr.fit.anti fun _ => And.left)
        (fun w hw => (hone w).symm.trans ((hsame w hw.1).2 hw.2)) hr.ground hfact
      refine .of_propagateFacts hr hr₁ (ha.level_eq.trans hr.ground)
        (fun hg => hw₁ (hr.watching hg)) (fun w hw => ?_)
        (fun ho => orderly_of_addFact ho hfact) hprop
      refine (hsame w (hr₁.evolves.problem w hw)).1 ((hone w).trans (hw.units l ?_))
      simp [hunits]
  | stored htwo hdistinct _ hstore =>
      exact adds_of_storeClause hr htwo hdistinct (fun m hm => hknown m ((hmem m).1 hm).1)
        (fun m hm => ((hmem m).1 hm).2) hsame hstore

/-- A clause is added to the problem. -/
theorem adds_of_addClause (hr : e.Resting good) (h : e.addClause lits = .ok (b, e')) :
    Adds (fun w => w.clauseHolds lits = true) good e b e' := by
  simp only [addClause, bind_eq_ok] at h
  obtain ⟨_, -, h⟩ := h
  split at h
  next =>
      rw [bind_eq_ok] at h
      obtain ⟨⟨implied, e₁⟩, himplied, h⟩ := h
      obtain ⟨hreach, hr₁, hyes⟩ := implied_of_implies hr himplied
      have ho : e.Orderly → e₁.Orderly := fun ho =>
        orderly_of_implies hr.fit hr.idle ho himplied
      cases implied with
      | true =>
          obtain ⟨rfl, rfl⟩ := Prod.mk.inj (pure_eq_ok.1 h)
          exact .after hreach ho
            (.of_implied hr₁ fun w hw => hyes rfl w (hreach.evolves.problem w hw))
      | false => exact .after hreach ho (adds_of_addReduced hr₁ h)
  next => exact adds_of_addReduced hr h

/-! ## At-most constraints -/

/-- Several facts become known at the ground level. -/
theorem reaches_of_facts {ls : List Lit} (hf : e.Fit R) (hground : e.trail.level = 0)
    (hR : ∀ w, R w → ∀ l ∈ ls, l.neg.holds w = true)
    (h : ls.foldlM (fun e l => addFact e l.neg) e = .ok e') :
    e.Reaches R e' ∧ e'.trail.level = 0 ∧ (e.Watching → e'.Watching) ∧
      e'.database.units.toList = e.database.units.toList ++ ls.map Lit.neg := by
  induction ls generalizing e with
  | nil =>
      rw [List.foldlM_nil, pure_eq_ok] at h
      subst h
      exact ⟨.refl hf, hground, id, by simp⟩
  | cons l rest ih =>
      rw [List.foldlM_cons, bind_eq_ok] at h
      obtain ⟨e₁, hfact, h⟩ := h
      obtain ⟨hr₁, ha, hw₁, hunits⟩ := reaches_of_fact hf (fun w hw => hR w hw l (by simp)) hground
        hfact
      obtain ⟨hr₂, hlevel, hw₂, hunits₂⟩ := ih hr₁.fit (ha.level_eq.trans hground)
        (fun w hw m hm => hR w hw m (by simp [hm])) h
      exact ⟨hr₁.trans hr₂, hlevel, fun hw => hw₂ (hw₁ hw), by rw [hunits₂, hunits]; simp⟩

/-- What is left of an at-most constraint can be stored if its bound is neither used up nor too high
to matter. -/
theorem Taking.wellFormed {t : Trail} {bound k : Nat} {r : Remainder}
    (ht : Taking t bound (Lit.sort lits) r) (hk : 0 < k ∧ k < r.lits.size) :
    (⟨.atMost k, r.lits⟩ : Constraint).WellFormed t.varCount where
  distinct := ht.distinct
  known m hm := ht.known m (ht.sub m hm)
  two_le := by
    simp only [Constraint.size]
    omega
  bounds k' hk' := by
    obtain rfl := Kind.atMost.inj hk'
    exact hk

/-- What becomes of an at-most constraint of which `r` is left. -/
inductive Bounded (e : Engine) (r : Remainder) : Bool → Engine → Prop
  | implied (h : (r.lits.size : Int) ≤ r.bound.toInt) : Bounded e r true e
  | refuted (h : r.bound.toInt < 0) : Bounded e r false e
  | facts {b : Bool} {e₁ e' : Engine} (hzero : r.bound.toInt = 0)
      (hfacts : r.lits.toList.foldlM (fun e l => addFact e l.neg) e = .ok e₁)
      (hprop : e₁.propagateFacts = .ok (b, e')) : Bounded e r b e'
  | stored {a : Handle} {db : Database} {store : Store} {e' : Engine}
      (hk : 0 < r.bound.toInt.toNat ∧ r.bound.toInt.toNat < r.lits.size)
      (hadd : e.database.addGiven e.store (.atMost r.bound.toInt.toNat) r.lits =
        .ok (a, db, store))
      (hwatch : { e with database := db, network := { e.network with store } }.watch a = .ok e') :
      Bounded e r true e'

/-- Every at-most constraint that is added is treated in one of the four ways. -/
theorem bounded_of_addAtMost {bound : Nat} (hv : e.trail.Valid)
    (h : e.addAtMost lits bound = .ok (b, e')) :
    e.trail.level = 0 ∧ ∃ r, Taking e.trail bound (Lit.sort lits) r ∧ Bounded e r b e' := by
  simp only [addAtMost, bind_eq_ok, require_eq_ok, Trail.isGround, beq_iff_eq] at h
  obtain ⟨-, hground, r, htake, h⟩ := h
  refine ⟨hground, r, taking_of_foldlM hv htake, ?_⟩
  split at h
  next hbig =>
      obtain ⟨rfl, rfl⟩ := Prod.mk.inj (pure_eq_ok.1 h)
      exact .implied hbig
  next =>
      split at h
      next hneg =>
          obtain ⟨rfl, rfl⟩ := Prod.mk.inj (pure_eq_ok.1 h)
          rw [Int64.lt_iff_toInt_lt, Int64.toInt_zero] at hneg
          exact .refuted hneg
      next =>
          split at h
          next hzero =>
              obtain ⟨e₁, hfacts, hprop⟩ := bind_eq_ok.1 h
              rw [← Array.foldlM_toList] at hfacts
              exact .facts (by rw [hzero, Int64.toInt_zero]) hfacts hprop
          next =>
              simp only [bind_eq_ok, pure_eq_ok, Prod.mk.injEq, Database.addAtMost,
                require_eq_ok, decide_eq_true_eq] at h
              obtain ⟨⟨a, db, store⟩, ⟨_, hk, hadd⟩, e₁, hwatch, rfl, rfl⟩ := h
              exact .stored hk hadd hwatch

/-- An at-most constraint is added to the problem, as what is left of it. -/
theorem adds_of_addAtMost {bound : Nat} (hr : e.Resting good)
    (h : e.addAtMost lits bound = .ok (b, e')) :
    ∃ r, Taking e.trail bound (Lit.sort lits) r ∧
      Adds (fun w => (r.lits.toList.countP (Lit.holds w) : Int) ≤ r.bound.toInt) good e b e' := by
  obtain ⟨-, r, ht, hb⟩ := bounded_of_addAtMost hr.fit.sane.trail h
  refine ⟨r, ht, ?_⟩
  have hfit : e.Fit fun w => e.Problem w ∧
      (r.lits.toList.countP (Lit.holds w) : Int) ≤ r.bound.toInt := hr.fit.anti fun _ => And.left
  cases hb with
  | implied hbig =>
      refine .of_implied hr fun w _ => ?_
      have := List.countP_le_length (p := Lit.holds w) (l := r.lits.toList)
      rw [Array.length_toList] at this
      omega
  | refuted hneg => exact .of_refuted hr fun w _ hc => by omega
  | facts hzero hfacts hprop =>
      rw [hzero] at hfit ⊢
      -- none of the literals may be true, so their complements become facts
      have hiff : ∀ w : World, (r.lits.toList.countP (Lit.holds w) : Int) ≤ 0 ↔
          ∀ l ∈ r.lits.toList, l.neg.holds w = true := fun w => by
        rw [Int.natCast_nonpos_iff, List.countP_eq_zero]
        simp
      obtain ⟨hr₁, hlevel, hw₁, hunits⟩ := reaches_of_facts hfit hr.ground
        (fun w hw => (hiff w).1 hw.2) hfacts
      refine .of_propagateFacts hr hr₁ hlevel (fun hg => hw₁ (hr.watching hg))
        (fun w hw => (hiff w).2 fun l hl => hw.units l.neg ?_)
        (fun ho => orderly_of_addFacts ho hfacts) hprop
      rw [hunits]
      exact List.mem_append_right _ (List.mem_map_of_mem hl)
  | stored hk hadd hwatch =>
      -- the bound that is stored is the word read as a natural number
      have htoNat : (r.bound.toInt.toNat : Int) = r.bound.toInt := by omega
      have hwf := ht.wellFormed hk
      have hiff : ∀ w : World, (⟨.atMost r.bound.toInt.toNat, r.lits⟩ : Constraint).holds w =
          true ↔ (r.lits.toList.countP (Lit.holds w) : Int) ≤ r.bound.toInt := fun w => by
        rw [Constraint.holds_of_atMost rfl, World.atMostHolds, decide_eq_true_iff,
          World.count_of_nodup hwf.nodup, ← Int.ofNat_le, htoNat]
      have hkind : ∀ x k, Kind.atMost r.bound.toInt.toNat ≠ .learnt x k := fun _ _ hk => by
        cases hk
      have hg := gives_of_addGiven hfit hkind hwf (fun w hw => (hiff w).2 hw.2) hadd hwatch
      refine .of_gives hr hg (fun key hkey hmem => ?_) (fun w _ hc => (hiff w).1 hc)
        fun ho => orderly_of_addGiven hr.fit ho hkind hwf hadd hwatch
      rw [Constraint.keys_atMost rfl] at hkey
      have hunset := ht.unset key (Constraint.mem_of_mem_watchedLits hkey)
      rw [(hr.fit.sane.trail.truth_yes key).2 hmem] at hunset
      cases hunset

/-! ## Preprocessing -/

/-- Preprocessing adds nothing to the problem. -/
theorem adds_of_preprocess (hr : e.Resting good) (h : e.preprocess = .ok (b, e')) :
    Adds (fun _ => True) good e b e' := by
  simp only [preprocess, bind_eq_ok] at h
  obtain ⟨_, -, ⟨failed, e₁⟩, hprop, h⟩ := h
  have hp := propagated_of_propagate hr.fit hr.watching hprop
  have hground : e₁.trail.level = 0 := hp.longer.level_eq.trans hr.ground
  cases failed with
  | some a =>
      obtain ⟨rfl, rfl⟩ := Prod.mk.inj (pure_eq_ok.1 h)
      exact ⟨hp.reaches.fit.anti fun _ => And.left, hp.reaches.fit.anti hp.reaches.evolves.problem,
        hp.reaches.evolves, hp.reaches.varCount, hp.reaches.decides, hground,
        fun _ w hw => absurd hw (hp.absurd hground w), by simp, by simp, by simp, by simp,
        fun ho => orderly_of_propagate hr.fit ho hprop⟩
  -- without a conflict the constraints are simplified at the end
  | none =>
      simp only [bind_eq_ok, pure_eq_ok, Prod.mk.injEq] at h
      obtain ⟨e₂, hsimp, rfl, rfl⟩ := h
      obtain ⟨hr₂, hc, -, hw⟩ := reaches_of_simplify hp.reaches.fit (hp.watching rfl) hsimp
      have hreach := hp.reaches.trans hr₂
      have hr₃ := hreach.resting hr (hc.level_eq.trans hground) (idle_of_cleared hp.idle hc) hw
      exact .after hreach (fun ho => orderly_of_simplify hp.reaches.fit
        (orderly_of_propagate hr.fit ho hprop) hsimp) (.of_implied hr₃ fun _ _ => trivial)

end Engine

end CardSat
