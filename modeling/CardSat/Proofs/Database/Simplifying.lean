import CardSat.Proofs.Database.Thinning
import CardSat.Proofs.Database.Forgetting
import CardSat.Proofs.Network.Assigning
import CardSat.Proofs.Propagation.Fixpoint

set_option autoImplicit false

/-! # What the removal of satisfied constraints leaves

`Database.removeSatisfied` examines the learnt clauses and, where it is allowed to, the given
constraints. One that is satisfied goes, and with `strengthen` a clause that is not satisfied loses
its false literals from the third on (`Swept`). The constraints that are not examined stay as they
are, and of the reasons only those of freed constraints are forgotten (`SweptOver`).

Where nothing waits to be propagated and no constraint is forgotten, the first two literals of a
clause that is not satisfied have no value. Then a strengthened clause has lost all of its false
literals, and the worlds of the constraints that extend the trail stay the same
(`simplifies_of_removeSatisfied`).
-/

namespace CardSat

namespace Database

variable {st givenToo : Bool} {db db' : Database} {store : Store} {t t' : Trail} {s s' : Sweep}
  {h : Handle} {c : Constraint} {done : Handle → Prop}

/-! ## Freeing -/

/-- Freeing a constraint takes away the reasons that name it, and those of assigned variables
only. -/
theorem reasonOf_of_drop (hd : s.drop h c = .ok s') (v : Var) :
    s'.trail.reasonOf v = s.trail.reasonOf v ∨
      s.trail.truth (v.lit false) ≠ .unset ∧ s.trail.reasonOf v = some h ∧
        s'.trail.reasonOf v = none := by
  simp only [Sweep.drop, bind_eq_ok, pure_eq_ok] at hd
  obtain ⟨trail, htrail, store, -, rfl⟩ := hd
  -- the reason of one variable is followed through the pass over the literals
  let P : List Lit → Trail → Prop := fun _ t => s.trail.Cleared t ∧
    (t.reasonOf v = s.trail.reasonOf v ∨ s.trail.truth (v.lit false) ≠ .unset ∧
      s.trail.reasonOf v = some h ∧ t.reasonOf v = none)
  have hend : P [] trail := by
    refine foldlM_ok P ?_ ⟨.refl _, .inl rfl⟩ htrail
    rintro l rest t₁ t₂ ⟨hc, hv⟩ hstep
    obtain ⟨b, hb, hstep⟩ := bind_eq_ok.1 hstep
    cases b with
    | false => exact pure_eq_ok.1 hstep ▸ ⟨hc, hv⟩
    | true =>
        obtain ⟨hset, hreason⟩ := (isReasonFor_eq_ok hb).1 rfl
        refine ⟨hc.trans (Trail.cleared_of_clearReason hstep), ?_⟩
        have hcell := Trail.cellOf_clearReason hstep
        by_cases hvl : v = l.var
        · -- the reason that is taken away now was there at the start
          subst hvl
          refine .inr ⟨?_, ?_, by rw [Trail.reasonOf, hcell, if_pos rfl]⟩
          · rw [hc.truth, ne_eq, ← Trail.isUnset_iff] at hset
            rwa [ne_eq, ← Trail.isUnset_iff]
          · rcases hv with heq | ⟨-, -, hnone⟩
            · rw [← heq, hreason]
            · rw [hnone] at hreason
              cases hreason
        · rwa [Trail.reasonOf, hcell, if_neg hvl]
  exact hend.2

/-! ## One constraint -/

/-- What becomes of a constraint that is examined. -/
inductive Swept (strengthen : Bool) (t : Trail) (c : Constraint) : Option Constraint → Prop
  | removed (h : c.isSatisfied t = .ok true) : Swept strengthen t c none
  | kept (h : c.isSatisfied t = .ok false) (hwhole : (strengthen && !c.isAtMost) = false) :
      Swept strengthen t c (some c)
  | stripped {c' : Constraint} (h : c.isSatisfied t = .ok false)
      (hstrip : (strengthen && !c.isAtMost) = true) (hkind : c'.kind = c.kind)
      (hfront : c'.lits.toList.take 2 = c.lits.toList.take 2)
      (hrest : (c'.lits.toList.drop 2).Perm
        ((c.lits.toList.drop 2).filter fun l => !decide (t.truth l = .no))) :
      Swept strengthen t c (some c')

/-- Reasons do not matter. -/
theorem Swept.of_cleared {o : Option Constraint} (hs : Swept st t' c o) (ht : t.Cleared t') :
    Swept st t c o := by
  cases hs with
  | removed h => exact .removed (Constraint.isSatisfied_of_cleared ht c ▸ h)
  | kept h hwhole => exact .kept (Constraint.isSatisfied_of_cleared ht c ▸ h) hwhole
  | stripped h hstrip hkind hfront hrest =>
      simp only [ht.truth] at hrest
      exact .stripped (Constraint.isSatisfied_of_cleared ht c ▸ h) hstrip hkind hfront hrest

namespace Swept

variable {c' : Constraint}

/-- What is left over is not satisfied. -/
theorem unsatisfied (hs : Swept st t c (some c')) : c.isSatisfied t = .ok false := by
  cases hs with
  | kept h => exact h
  | stripped h => exact h

/-- The first two literals stay where they are. -/
theorem front (hs : Swept st t c (some c')) :
    c'.kind = c.kind ∧ c'.lits.toList.take 2 = c.lits.toList.take 2 := by
  cases hs with
  | kept => exact ⟨rfl, rfl⟩
  | stripped _ _ hkind hfront => exact ⟨hkind, hfront⟩

/-- A constraint that is not to be strengthened stays whole. -/
theorem eq_of_whole (hs : Swept st t c (some c')) (hwhole : (st && !c.isAtMost) = false) :
    c' = c := by
  cases hs with
  | kept => rfl
  | stripped _ hstrip =>
      rw [hwhole] at hstrip
      cases hstrip

/-- If the first two literals have no value, all false literals are lost. -/
theorem perm (hs : Swept st t c (some c')) (hstrip : (st && !c.isAtMost) = true)
    (hopen : ∀ l ∈ c.lits.toList.take 2, t.truth l = .unset) :
    c'.lits.toList.Perm (c.lits.toList.filter fun l => !decide (t.truth l = .no)) := by
  cases hs with
  | kept _ hwhole =>
      rw [hwhole] at hstrip
      cases hstrip
  | stripped _ _ _ hfront hrest =>
      have hkeep : (c.lits.toList.take 2).filter (fun l => !decide (t.truth l = .no)) =
          c.lits.toList.take 2 :=
        List.filter_eq_self.2 fun l hl => by simp [hopen l hl]
      calc c'.lits.toList = c'.lits.toList.take 2 ++ c'.lits.toList.drop 2 :=
            (List.take_append_drop 2 _).symm
        _ = c.lits.toList.take 2 ++ c'.lits.toList.drop 2 := by rw [hfront]
        List.Perm _ (c.lits.toList.take 2 ++
            (c.lits.toList.drop 2).filter fun l => !decide (t.truth l = .no)) :=
          hrest.append_left _
        _ = (c.lits.toList.take 2 ++ c.lits.toList.drop 2).filter
            fun l => !decide (t.truth l = .no) := by rw [List.filter_append, hkeep]
        _ = c.lits.toList.filter fun l => !decide (t.truth l = .no) := by
          rw [List.take_append_drop]

/-- Where the literals of the trail hold, the constraint that is left means the same. -/
theorem holds_eq (hs : Swept st t c (some c')) (hv : t.Valid)
    (hopen : c.isAtMost = false → ∀ l ∈ c.lits.toList.take 2, t.truth l = .unset) {w : World}
    (hw : ∀ l ∈ t, l.holds w = true) : c'.holds w = c.holds w := by
  cases hstrip : (st && !c.isAtMost) with
  | false => rw [hs.eq_of_whole hstrip]
  | true =>
      have ha : c.isAtMost = false := by simpa using (Bool.and_eq_true_iff.1 hstrip).2
      have ha' : c'.isAtMost = false := by
        rw [Constraint.isAtMost, hs.front.1]
        exact ha
      rw [Constraint.holds_of_not_isAtMost ha', Constraint.holds_of_not_isAtMost ha,
        Bool.eq_iff_iff, World.clauseHolds_iff, World.clauseHolds_iff]
      have hperm := hs.perm hstrip (hopen ha)
      constructor
      · rintro ⟨l, hl, hlw⟩
        exact ⟨l, (List.mem_filter.1 (hperm.mem_iff.1 hl)).1, hlw⟩
      · rintro ⟨l, hl, hlw⟩
        refine ⟨l, hperm.mem_iff.2 (List.mem_filter.2 ⟨hl, ?_⟩), hlw⟩
        -- a false literal holds in no world that extends the trail
        suffices t.truth l ≠ .no by simpa using this
        intro hno
        have := hw l.neg ((hv.truth_no l).1 hno)
        rw [Lit.holds_neg, hlw] at this
        cases this

end Swept

/-- A sweep treats one constraint at a time. -/
theorem swept_of_sweepSatisfied (hc : s.store.get? h = some c) (htwo : 2 ≤ c.size)
    (hok : sweepSatisfied st s h = .ok s') :
    Swept st s.trail c (s'.store.get? h) ∧ (∀ a, a ≠ h → s'.store.get? a = s.store.get? a) ∧
      s.trail.Cleared s'.trail ∧ ∀ v, s'.trail.reasonOf v = s.trail.reasonOf v ∨
        s.trail.truth (v.lit false) ≠ .unset ∧ s.trail.reasonOf v = some h ∧
          s'.trail.reasonOf v = none ∧ s'.store.get? h = none := by
  simp only [sweepSatisfied, Store.fetch_eq_ok.2 hc, ok_bind, bind_eq_ok] at hok
  obtain ⟨b, hb, hok⟩ := hok
  cases b with
  | true =>
      -- a satisfied constraint is freed
      have hreason := reasonOf_of_drop hok
      simp only [if_true, Sweep.drop, bind_eq_ok, pure_eq_ok] at hok
      obtain ⟨trail, htrail, store, hstore, rfl⟩ := hok
      have hget := (Store.free_eq_ok hstore).2
      have hgone : store.get? h = none := by rw [hget, if_pos rfl]
      refine ⟨?_, fun a ha => (hget a).trans (if_neg ha), (cleared_of_foldlM htrail).1, fun v => ?_⟩
      · rw [hgone]
        exact .removed hb
      · rcases hreason v with heq | ⟨hset, hr, hnone⟩
        · exact .inl heq
        · exact .inr ⟨hset, hr, hnone, hgone⟩
  | false =>
      simp only [Bool.false_eq_true, if_false] at hok
      split at hok
      next hstrip =>
          obtain ⟨c', hc', hok⟩ := bind_eq_ok.1 hok
          obtain rfl := pure_eq_ok.1 hok
          have hget : ∀ a, (s.store.put h c').get? a = if a = h then some c' else s.store.get? a :=
            Store.get?_put hc
          refine ⟨?_, fun a ha => (hget a).trans (if_neg ha), .refl _, fun v => .inl rfl⟩
          obtain ⟨lits, hlits, hc'⟩ := bind_eq_ok.1 hc'
          obtain rfl := pure_eq_ok.1 hc'
          obtain ⟨hfront, hrest⟩ := Constraint.retainFrom_ok
            (p := fun l => !decide (s.trail.truth l = .no)) (fun l r hr => by
              obtain ⟨x, hx, hr⟩ := bind_eq_ok.1 hr
              rw [← pure_eq_ok.1 hr, (Trail.isFalse_eq_ok hx).2]) htwo hlits
          show Swept st s.trail c ((s.store.put h { c with lits }).get? h)
          rw [hget, if_pos rfl]
          exact .stripped hb hstrip rfl hfront hrest
      next hwhole =>
          obtain rfl := pure_eq_ok.1 hok
          refine ⟨?_, fun a _ => rfl, .refl _, fun v => .inl rfl⟩
          rw [show (s.keep h).store.get? h = some c from hc]
          exact .kept hb (by simpa using hwhole)

/-! ## All constraints -/

/-- A sweep over the constraints `done` of a store and a trail. -/
structure SweptOver (strengthen : Bool) (store : Store) (t : Trail) (done : Handle → Prop)
    (s : Sweep) : Prop where
  trail : t.Cleared s.trail
  swept : ∀ a, done a → ∃ c, store.get? a = some c ∧ Swept strengthen t c (s.store.get? a)
  untouched : ∀ a, ¬ done a → s.store.get? a = store.get? a
  reasons : ∀ v, s.trail.reasonOf v = t.reasonOf v ∨
    ∃ a, t.truth (v.lit false) ≠ .unset ∧ t.reasonOf v = some a ∧ s.trail.reasonOf v = none ∧
      s.store.get? a = none

namespace SweptOver

/-- No constraint has been treated at the start. -/
theorem start (db : Database) (store : Store) (t : Trail) :
    SweptOver st store t (fun _ => False) (Sweep.start db store t) where
  trail := .refl t
  swept _ := False.elim
  untouched _ _ := rfl
  reasons _ := .inl rfl

/-- The set of those treated may be written in another way. -/
theorem congr {done' : Handle → Prop} (hs : SweptOver st store t done s)
    (hiff : ∀ a, done' a ↔ done a) : SweptOver st store t done' s := by
  rwa [show done' = done from funext fun a => propext (hiff a)]

/-- One more constraint is treated. -/
theorem step (hs : SweptOver st store t done s) (hnew : ¬ done h)
    (htwo : ∀ a c, store.get? a = some c → 2 ≤ c.size) (hok : sweepSatisfied st s h = .ok s') :
    SweptOver st store t (fun a => done a ∨ a = h) s' := by
  obtain ⟨c, hc, -⟩ := bind_eq_ok.1 hok
  have hc := Store.fetch_eq_ok.1 hc
  have hcs : store.get? h = some c := (hs.untouched h hnew).symm.trans hc
  obtain ⟨hswept, hsame, htrail, hreasons⟩ := swept_of_sweepSatisfied hc (htwo h c hcs) hok
  have hne : ∀ {a}, done a → a ≠ h := fun ha he => hnew (he ▸ ha)
  refine ⟨hs.trail.trans htrail, fun a ha => ?_, fun a ha => ?_, fun v => ?_⟩
  · rcases ha with ha | rfl
    · rw [hsame a (hne ha)]
      exact hs.swept a ha
    · exact ⟨c, hcs, hswept.of_cleared hs.trail⟩
  · rw [hsame a fun he => ha (.inr he)]
    exact hs.untouched a fun hd => ha (.inl hd)
  · rcases hs.reasons v with heq | ⟨a, hset, ha, hnone, hgone⟩
    · rcases hreasons v with heq' | ⟨hset, hr, hnone, hgone⟩
      · exact .inl (heq'.trans heq)
      · exact .inr ⟨h, by rwa [hs.trail.truth] at hset, heq ▸ hr, hnone, hgone⟩
    · -- what is freed stays freed, and a reason that is taken away does not come back
      refine .inr ⟨a, hset, ha, ?_, ?_⟩
      · rcases hreasons v with heq' | ⟨-, hr, -⟩
        · rw [heq', hnone]
        · rw [hnone] at hr
          cases hr
      · rw [hsame a fun he => ?_, hgone]
        rw [he, hc] at hgone
        cases hgone

/-- A whole list is treated, one constraint at a time. -/
theorem run : ∀ {as : List Handle} {done : Handle → Prop} {s : Sweep},
    SweptOver st store t done s → as.Nodup → (∀ a ∈ as, ¬ done a) →
    (∀ a c, store.get? a = some c → 2 ≤ c.size) → as.foldlM (sweepSatisfied st) s = .ok s' →
    SweptOver st store t (fun a => done a ∨ a ∈ as) s' := by
  intro as
  induction as with
  | nil =>
      intro done s hs _ _ _ hok
      rw [List.foldlM_nil, pure_eq_ok] at hok
      exact hok ▸ hs.congr fun a => by simp
  | cons h rest ih =>
      intro done s hs hnd hnew htwo hok
      obtain ⟨hnot, hnd⟩ := List.nodup_cons.1 hnd
      rw [List.foldlM_cons, bind_eq_ok] at hok
      obtain ⟨s₁, hstep, hok⟩ := hok
      have hs₁ := hs.step (hnew h (by simp)) htwo hstep
      refine (ih hs₁ hnd (fun a ha hd => ?_) htwo hok).congr fun a => by simp [or_assoc]
      rcases hd with hd | rfl
      · exact hnew a (List.mem_cons_of_mem _ ha) hd
      · exact hnot ha

/-! ### What it leaves -/

/-- A constraint that was examined is what `Swept` says. -/
theorem swept_of_stored (hs : SweptOver st store t done s) (hc : store.get? h = some c)
    (hd : done h) : Swept st t c (s.store.get? h) := by
  obtain ⟨c₀, hc₀, hswept⟩ := hs.swept h hd
  rwa [Option.some.inj (hc.symm.trans hc₀)]

/-- A constraint is gone when it was examined and is satisfied. -/
theorem get?_eq_none_iff (hs : SweptOver st store t done s) (hc : store.get? h = some c) :
    s.store.get? h = none ↔ done h ∧ c.isSatisfied t = .ok true := by
  by_cases hd : done h
  · have hswept := hs.swept_of_stored hc hd
    cases hc' : s.store.get? h with
    | none =>
        rw [hc'] at hswept
        cases hswept with
        | removed hsat => simp [hd, hsat]
    | some c' => simp [(hc' ▸ hswept).unsatisfied]
  · simp [hs.untouched h hd, hc, hd]

/-- A constraint that is left was left as it was, or treated. -/
theorem left {c' : Constraint} (hs : SweptOver st store t done s)
    (hc' : s.store.get? h = some c') : ∃ c, store.get? h = some c ∧
      (done h ∧ Swept st t c (some c') ∨ ¬ done h ∧ c' = c) := by
  by_cases hd : done h
  · obtain ⟨c, hc, hswept⟩ := hs.swept h hd
    exact ⟨c, hc, .inl ⟨hd, hc' ▸ hswept⟩⟩
  · exact ⟨c', (hs.untouched h hd).symm.trans hc', .inr ⟨hd, rfl⟩⟩

/-- What is left is a constraint that was treated, or one that was not examined. -/
theorem cases_of_stored {c' : Constraint} (hs : SweptOver st store t done s)
    (hc : store.get? h = some c) (hc' : s.store.get? h = some c') :
    done h ∧ Swept st t c (some c') ∨ ¬ done h ∧ c' = c := by
  obtain ⟨c₀, hc₀, hcase⟩ := hs.left hc'
  rwa [Option.some.inj (hc.symm.trans hc₀)]

/-- The worlds that extend the trail and meet the constraints stay the same, if the clauses that
are left have two literals without a value in front. -/
theorem worlds_iff (hs : SweptOver st store t done s) (hv : t.Valid)
    (hformed : ∀ a c, store.get? a = some c → c.WellFormed t.varCount)
    (hopen : ∀ a c, store.get? a = some c → c.isSatisfied t = .ok false → c.isAtMost = false →
      ∀ l ∈ c.lits.toList.take 2, t.truth l = .unset)
    {w : World} (hw : ∀ l ∈ t, l.holds w = true) :
    (∀ a c, store.get? a = some c → c.holds w = true) ↔
      ∀ a c, s.store.get? a = some c → c.holds w = true := by
  have hsame : ∀ {a c c'}, store.get? a = some c → Swept st t c (some c') →
      c'.holds w = c.holds w := fun hc hswept =>
    hswept.holds_eq hv (hopen _ _ hc hswept.unsatisfied) hw
  constructor
  · intro hall a c' hc'
    obtain ⟨c, hc, ⟨-, hswept⟩ | ⟨-, rfl⟩⟩ := hs.left hc'
    · rw [hsame hc hswept]
      exact hall a c hc
    · exact hall a c' hc
  · intro hall a c hc
    cases hc' : s.store.get? a with
    | none =>
        have hsat := ((hs.get?_eq_none_iff hc).1 hc').2
        exact Constraint.holds_of_isSatisfied hv (hformed a c hc) hsat hw
    | some c' =>
        rcases hs.cases_of_stored hc hc' with ⟨-, hswept⟩ | ⟨-, rfl⟩
        · rw [← hsame hc hswept]
          exact hall a c' hc'
        · exact hall a c' hc'

/-- If the reasons that are left are stored, exactly those of removed constraints are gone. -/
theorem reasonOf_eq (hs : SweptOver st store t done s) {v : Var}
    (hlive : ∀ a, s.trail.reasonOf v = some a → ∃ c, s.store.get? a = some c) :
    s.trail.reasonOf v = (t.reasonOf v).filter fun h => (s.store.get? h).isSome := by
  rcases hs.reasons v with heq | ⟨a, -, ha, hnone, hgone⟩
  · rw [heq]
    cases hr : t.reasonOf v with
    | none => rfl
    | some a =>
        obtain ⟨c, hc⟩ := hlive a (heq.trans hr)
        rw [Option.filter_some, if_pos (by rw [hc]; rfl)]
  · rw [hnone, ha, Option.filter_some, if_neg (by simp [hgone])]

end SweptOver

/-- The constraints that `removeSatisfied` examines. -/
def Examines (db : Database) (givenToo : Bool) (h : Handle) : Prop :=
  h ∈ db.learnts.toList ∨ (givenToo && db.settings.removeSatisfied) = true ∧ h ∈ db.given.toList

/-- The operation treats the constraints that it examines, and no others. -/
theorem sweptOver_of_removeSatisfied (hnd : (db.given.toList ++ db.learnts.toList).Nodup)
    (htwo : ∀ a c, store.get? a = some c → 2 ≤ c.size)
    (hok : db.removeSatisfied store t givenToo st = .ok (db', s)) :
    SweptOver st store t (db.Examines givenToo) s := by
  obtain ⟨hgivens, hlearnts, hdisjoint⟩ := List.nodup_append.1 hnd
  simp only [removeSatisfied, bind_eq_ok] at hok
  obtain ⟨-, -, s₁, hfold, hok⟩ := hok
  rw [← Array.foldlM_toList] at hfold
  have hs₁ := (SweptOver.start db store t).run hlearnts (fun _ _ => id) htwo hfold
  split at hok
  -- the given constraints are swept after the learnt ones, and the two lists share no clause
  next hyes =>
      obtain ⟨s₂, hfold₂, hok⟩ := bind_eq_ok.1 hok
      obtain ⟨-, rfl⟩ := Prod.mk.inj (pure_eq_ok.1 hok)
      rw [← Array.foldlM_toList] at hfold₂
      have hstart : SweptOver st store t (fun a => False ∨ a ∈ db.learnts.toList)
          { s₁ with kept := #[] } := ⟨hs₁.trail, hs₁.swept, hs₁.untouched, hs₁.reasons⟩
      refine (hstart.run hgivens (fun a ha hd => ?_) htwo hfold₂).congr fun a => ?_
      · exact hdisjoint a ha a (hd.resolve_left id) rfl
      · simp [Examines, hyes]
  next hno =>
      obtain ⟨-, rfl⟩ := Prod.mk.inj (pure_eq_ok.1 hok)
      exact hs₁.congr fun a => by simp [Examines, hno]

/-! ## The whole removal -/

/-- What the removal of satisfied constraints does to a store and a trail at the ground level. -/
structure Simplifies (db : Database) (store : Store) (t : Trail) (givenToo strengthen : Bool)
    (db' : Database) (s : Sweep) : Prop where
  /-- The worlds that extend the trail and meet what is stored stay the same. -/
  worlds : ∀ w : World, (∀ l ∈ t, l.holds w = true) →
    ((∀ h c, store.get? h = some c → c.holds w = true) ↔
      ∀ h c, s.store.get? h = some c → c.holds w = true)
  /-- No handle gets a constraint that had none. -/
  fresh : ∀ h, store.get? h = none → s.store.get? h = none
  /-- What is removed are the satisfied ones of the constraints that are examined. -/
  removed : ∀ h c, store.get? h = some c →
    (s.store.get? h = none ↔ db.Examines givenToo h ∧ c.isSatisfied t = .ok true)
  /-- No other at-most constraint changes, and no clause that is not to be strengthened. -/
  kept : ∀ h c c', store.get? h = some c → s.store.get? h = some c' →
    c.isAtMost = true ∨ strengthen = false ∨ ¬ db.Examines givenToo h → c' = c
  /-- A clause that is strengthened loses its false literals and nothing else. -/
  stripped : ∀ h c c', store.get? h = some c → s.store.get? h = some c' → c.isAtMost = false →
    strengthen = true → db.Examines givenToo h → c'.kind = c.kind ∧
      c'.lits.toList.Perm (c.lits.toList.filter fun l => !decide (t.truth l = .no))
  /-- A clause that is left has its first two literals where they were. -/
  front : ∀ h c c', store.get? h = some c → s.store.get? h = some c' → c.isAtMost = false →
    2 ≤ c'.size ∧ c'.lits.toList.take 2 = c.lits.toList.take 2
  /-- If it was examined, they have no value. -/
  unassigned : ∀ h c', s.store.get? h = some c' → c'.isAtMost = false →
    db.Examines givenToo h → ∀ l ∈ c'.lits.toList.take 2, t.truth l = .unset
  /-- The trail changes in its reasons only. -/
  trail : t.Cleared s.trail
  /-- A true literal loses its reason if this was removed. -/
  reasons : ∀ m ∈ t, s.trail.reasonOf m.var =
    (t.reasonOf m.var).filter fun h => (s.store.get? h).isSome
  /-- Nothing changes where there is no value. -/
  unset : ∀ v : Var, t.truth (v.lit false) = .unset → s.trail.reasonOf v = t.reasonOf v
  /-- The lists of the database are those of what is left. -/
  listed : db'.Listed s.store

/-- At the ground level, when everything is propagated and no constraint is forgotten, the removal
of satisfied constraints keeps the meaning of what is stored. -/
theorem simplifies_of_removeSatisfied {n : Network} {dead : Lit → Prop}
    (hs : n.Sane dead n.index.line) (hw : n.Watching fun _ _ => False)
    (hidle : n.trail.head = n.trail.lits.size) (hground : n.trail.level = 0)
    (hl : db.Listed n.store)
    (hstored : ∀ a ∈ db.given.toList ++ db.learnts.toList, ∃ c, n.store.get? a = some c)
    (givenToo strengthen : Bool) :
    ∃ db' s, db.removeSatisfied n.store n.trail givenToo strengthen = .ok (db', s) ∧
      db.Simplifies n.store n.trail givenToo strengthen db' s := by
  have hv : n.trail.Valid := hs.trail
  have htwo : ∀ a c, n.store.get? a = some c → 2 ≤ c.size := fun a c hc => (hs.formed a c hc).two_le
  obtain ⟨db', s, hok, -⟩ := succeeds_removeSatisfied givenToo strengthen hground
    hl.nodup hstored hs.formed
  have hso := sweptOver_of_removeSatisfied hl.nodup htwo hok
  -- at the ground level false literals are dead, so strengthening does no harm to the blockers
  have hs' : n.Sane (fun l => l.neg ∈ n.trail) n.index.line := hs.dead_mono hs.dead_false fun _ => id
  obtain ⟨hrem, -⟩ := removal_of_removeSatisfied (R := fun _ => False) hs' ⟨by simp, by simp⟩
    (fun _ : True => hw) hl (fun _ _ => id) hok
  have hopen : ∀ a c, n.store.get? a = some c → c.isSatisfied n.trail = .ok false →
      c.isAtMost = false → ∀ l ∈ c.lits.toList.take 2, n.trail.truth l = .unset := by
    intro a c hc hsat ha l hl
    have hno := Constraint.not_mem_of_isSatisfied hv ha hsat
    refine Constraint.unset_of_mem_watchedLits hv ha (hw.supported hidle hc)
      (fun m hm hyes => hno m hm ((hv.truth_yes m).1 hyes)) l ?_
    rwa [Constraint.watchedLits, Constraint.watchers_clause ha]
  refine ⟨db', s, hok, ?_⟩
  exact
  { worlds := fun w hw => hso.worlds_iff hv hs.formed hopen hw
    fresh := fun a hno => by
      cases hc' : s.store.get? a with
      | none => rfl
      | some c' =>
          obtain ⟨c, hc, -⟩ := hso.left hc'
          rw [hno] at hc
          cases hc
    removed := fun a c hc => hso.get?_eq_none_iff hc
    kept := fun a c c' hc hc' hwhole => by
      rcases hso.cases_of_stored hc hc' with ⟨ha, hsw⟩ | ⟨-, heq⟩
      · refine hsw.eq_of_whole ?_
        rcases hwhole with hat | hst | hno
        · simp [hat]
        · simp [hst]
        · exact absurd ha hno
      · exact heq
    stripped := fun a c c' hc hc' hat hst ha => by
      rcases hso.cases_of_stored hc hc' with ⟨-, hsw⟩ | ⟨hno, -⟩
      · exact ⟨hsw.front.1, hsw.perm (by simp [hst, hat]) (hopen a c hc hsw.unsatisfied hat)⟩
      · exact absurd ha hno
    front := fun a c c' hc hc' hat => by
      refine ⟨(hrem.sane.formed a c' hc').two_le, ?_⟩
      rcases hso.cases_of_stored hc hc' with ⟨-, hsw⟩ | ⟨-, rfl⟩
      · exact hsw.front.2
      · rfl
    unassigned := fun a c' hc' hat ha => by
      obtain ⟨c, hc, ⟨-, hsw⟩ | ⟨hno, -⟩⟩ := hso.left hc'
      · rw [hsw.front.2]
        refine hopen a c hc hsw.unsatisfied ?_
        rwa [Constraint.isAtMost, ← hsw.front.1]
      · exact absurd ha hno
    trail := hrem.thinned.trail
    reasons := fun m hm => by
      refine hso.reasonOf_eq fun a ha => ?_
      obtain ⟨i, hi⟩ := List.mem_iff_getElem?.1 (hrem.thinned.trail.mem_iff.2 hm)
      obtain ⟨c, hc, -⟩ := hrem.sane.reasons i m a hi ha
      exact ⟨c, hc⟩
    unset := fun v hunset => by
      rcases hso.reasons v with heq | ⟨a, hset, -⟩
      · exact heq
      · exact absurd hunset hset
    listed := hrem.listed }

end Database

end CardSat
