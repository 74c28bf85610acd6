import CardSat.Proofs.Database.Counts
import CardSat.Proofs.Database.Truncating

set_option autoImplicit false

/-! # Thinning is not refused

Giving up learnt clauses and removing satisfied constraints looks at constraints on the lists only,
and at variables that are known. As long as every constraint on a list is stored, and each of them
once, there is nothing to refuse. What is removed belongs to the known variables, so its watchers
can be marked.

The invariant is `Sweep.Pending`, the same as for a truncation. What it needs of the constraints is
passed in as a predicate with a few closure properties (`Manageable`), so that the same proof serves
both for well formed constraints and for constraints of which only the variables are known.
-/

namespace CardSat

/-- A search through a list is not refused where no test is. -/
theorem succeeds_anyM {α : Type} {f : α → Checked Bool} {as : List α}
    (h : ∀ a ∈ as, Succeeds (f a)) : Succeeds (as.anyM f) := by
  induction as with
  | nil => exact succeeds_pure _
  | cons a rest ih =>
      rw [List.anyM]
      refine succeeds_bind (h a (by simp)) fun b _ => ?_
      cases b with
      | true => exact succeeds_pure _
      | false => exact ih fun a ha => h a (List.mem_cons_of_mem _ ha)

namespace Constraint

variable {c c' : Constraint} {t : Trail} {n : Nat} {test : Lit → Checked Bool}

/-- The test for being satisfied looks at the variables of the constraint. -/
theorem succeeds_isSatisfied (hc : ∀ l ∈ c.lits.toList, l.var.index < t.varCount) :
    Succeeds (c.isSatisfied t) := by
  unfold isSatisfied
  split
  · exact succeeds_bind (succeeds_filterM fun l hl => Trail.succeeds_isFalse (hc l hl))
      fun _ _ => succeeds_pure _
  · exact succeeds_anyM fun l hl => Trail.succeeds_isTrue (hc l hl)

/-- Neither is the removal of literals. -/
theorem succeeds_retainFrom {lits : Array Lit} {i : Nat}
    (h : ∀ l ∈ lits.toList, Succeeds (test l)) : Succeeds (retainFrom test lits i) := by
  induction lits, i using retainFrom.induct with
  | case1 lits i hi hkept hdropped =>
      rw [retainFrom, dif_pos hi]
      refine succeeds_bind (h _ (by simp)) fun b _ => ?_
      cases b with
      | true => exact hkept h
      | false =>
          refine hdropped fun l hl => ?_
          rw [Array.toList_pop, Array.toList_set] at hl
          rcases List.mem_or_eq_of_mem_set (List.dropLast_subset _ hl) with hl | rfl
          · exact h l hl
          · exact h _ (by simp)
  | case2 lits i hi =>
      rw [retainFrom, dif_neg hi]
      exact succeeds_pure _

/-- A clause keeps its first two literals, and so its form. -/
theorem Manageable.retainSuffix {P : Constraint → Prop} (hP : Manageable P n) (hc : P c)
    (ha : c.isAtMost = false) (hr : c.retainSuffix 2 test = .ok c')
    (htest : ∃ p : Lit → Bool, ∀ l r, test l = .ok r → r = p l) : P c' := by
  obtain ⟨p, hp⟩ := htest
  obtain ⟨heq, hsub, htwo⟩ := retainSuffix_eq_ok hp (hP.two_le hc) hr
  rw [heq]
  exact hP.shorten hc ha hsub htwo

end Constraint

namespace Database

variable {db : Database} {store : Store} {trail : Trail} {s : Sweep} {h : Handle}
  {c : Constraint} {P : Constraint → Prop} {n : Nat} {rest : List Handle}

open Constraint (Manageable)

/-! ## Satisfied constraints -/

namespace Sweep.Pending

/-- What was done to a constraint that is through does not matter. -/
theorem put {c' : Constraint} (hp : s.Pending P n (h :: rest)) (hc : s.store.get? h = some c)
    (hwf : P c') (counts : Counts) :
    Pending P n rest (Sweep.keep ⟨s.store.put h c', s.trail, counts, s.kept, s.removed⟩ h) := by
  obtain ⟨hnew, hnd⟩ := List.nodup_cons.1 hp.nodup
  refine ⟨hp.varCount, hnd, fun a ha => ?_, fun a d hd => ?_, hp.removed⟩
  · obtain ⟨d, hd⟩ := hp.stored a (List.mem_cons_of_mem _ ha)
    have hne : a ≠ h := fun he => hnew (he ▸ ha)
    exact ⟨d, (Store.get?_put hc a).trans ((if_neg hne).trans hd)⟩
  · rw [show (Sweep.keep _ h).store = s.store.put h c' from rfl, Store.get?_put hc] at hd
    split at hd
    next => exact Option.some.inj hd ▸ hwf
    next => exact hp.formed a d hd

/-- A step of the removal is not refused, and the sweep goes on. -/
theorem sweepSatisfied (hP : Manageable P n) (hp : s.Pending P n (h :: rest))
    (strengthen : Bool) :
    ∃ s', Database.sweepSatisfied strengthen s h = .ok s' ∧ s'.Pending P n rest := by
  obtain ⟨c, hc⟩ := hp.stored h List.mem_cons_self
  have hwf := hp.formed h c hc
  have hknown : ∀ l ∈ c.lits.toList, l.var.index < s.trail.varCount := fun l hl =>
    hp.varCount ▸ hP.known hwf l hl
  obtain ⟨satisfied, hsat⟩ := Constraint.succeeds_isSatisfied hknown
  simp only [Database.sweepSatisfied, Store.fetch_eq_ok.2 hc, ok_bind, hsat]
  cases satisfied with
  | true => exact hp.drop hP hc
  | false =>
      simp only [Bool.false_eq_true, if_false]
      split
      next hst =>
          have hat : c.isAtMost = false := by
            simp only [Bool.and_eq_true, Bool.not_eq_true'] at hst
            exact hst.2
          -- a clause that is not satisfied is strengthened, which leaves its variables known
          obtain ⟨lits, hlits⟩ : Succeeds (Constraint.retainFrom
              (fun l => do return !(← s.trail.isFalse l)) c.lits 2) :=
            Constraint.succeeds_retainFrom fun l hl =>
              succeeds_bind (Trail.succeeds_isFalse (hknown l hl)) fun _ _ => succeeds_pure _
          have hretain : c.retainSuffix 2 (fun l => do return !(← s.trail.isFalse l)) =
              .ok { c with lits } :=
            bind_eq_ok.2 ⟨lits, hlits, rfl⟩
          refine ⟨_, bind_eq_ok.2 ⟨_, hretain, rfl⟩, hp.put hc ?_ _⟩
          refine hP.retainSuffix hwf hat hretain
            ⟨fun l => !decide (s.trail.truth l = .no), fun l r hr => ?_⟩
          obtain ⟨b, hb, hr⟩ := bind_eq_ok.1 hr
          rw [← pure_eq_ok.1 hr, (Trail.isFalse_eq_ok hb).2]
      next => exact ⟨_, rfl, hp.keep⟩

end Sweep.Pending

/-- At the ground level the removal of satisfied constraints is not refused. -/
theorem exists_removeSatisfied (hP : Manageable P trail.varCount) (givenToo strengthen : Bool)
    (hground : trail.level = 0)
    (hnd : (db.given.toList ++ db.learnts.toList).Nodup)
    (hstored : ∀ a ∈ db.given.toList ++ db.learnts.toList, ∃ c, store.get? a = some c)
    (hformed : ∀ a c, store.get? a = some c → P c) :
    ∃ db' s, db.removeSatisfied store trail givenToo strengthen = .ok (db', s) ∧
      s.trail.varCount = trail.varCount ∧
      ∀ x ∈ s.removed.toList, P x.2 := by
  have hstart : (Sweep.start db store trail).Pending P trail.varCount
      (db.learnts.toList ++ db.given.toList) :=
    ⟨rfl, List.nodup_append_comm.1 hnd, fun a ha => hstored a (List.perm_append_comm.subset ha),
      hformed, by simp [Sweep.start]⟩
  obtain ⟨s₁, hfold₁, hp₁⟩ := succeeds_foldlM (f := Database.sweepSatisfied strengthen)
    (fun rest s => s.Pending P trail.varCount (rest ++ db.given.toList))
    (fun _ _ _ hp => hp.sweepSatisfied hP strengthen) hstart
  -- the second sweep starts from what the first one leaves
  have hkept : Sweep.Pending P trail.varCount db.given.toList { s₁ with kept := #[] } :=
    ⟨hp₁.varCount, hp₁.nodup, hp₁.stored, hp₁.formed, hp₁.removed⟩
  obtain ⟨s₂, hfold₂, hp₂⟩ := succeeds_foldlM (f := Database.sweepSatisfied strengthen)
    (fun rest s => s.Pending P trail.varCount rest)
    (fun _ _ _ hp => hp.sweepSatisfied hP strengthen) hkept
  rw [Array.foldlM_toList] at hfold₁ hfold₂
  have hisGround : trail.isGround = true := by simp [Trail.isGround, hground]
  simp only [removeSatisfied, require, hisGround, if_true, ok_bind, hfold₁]
  split
  next => exact ⟨_, s₂, by rw [hfold₂]; rfl, hp₂.varCount, hp₂.removed⟩
  next => exact ⟨_, s₁, rfl, hp₁.varCount, hp₁.removed⟩

/-- Removing satisfied constraints at the ground level is not refused. -/
theorem succeeds_removeSatisfied (givenToo strengthen : Bool) (hground : trail.level = 0)
    (hnd : (db.given.toList ++ db.learnts.toList).Nodup)
    (hstored : ∀ a ∈ db.given.toList ++ db.learnts.toList, ∃ c, store.get? a = some c)
    (hformed : ∀ a c, store.get? a = some c → c.WellFormed trail.varCount) :
    ∃ db' s, db.removeSatisfied store trail givenToo strengthen = .ok (db', s) ∧
      s.trail.varCount = trail.varCount ∧
      ∀ x ∈ s.removed.toList, x.2.WellFormed trail.varCount :=
  exists_removeSatisfied (Constraint.manageable_wellFormed _) givenToo strengthen hground hnd hstored
    hformed

/-! ## Learnt clauses given up -/

/-- The constraints of a list can all be looked up. -/
theorem succeeds_mapM_fetch {hs : List Handle} (h : ∀ a ∈ hs, ∃ c, store.get? a = some c) :
    Succeeds (hs.mapM fun h => return (h, ← store.fetch h) :
      Checked (List (Handle × Constraint))) := by
  induction hs with
  | nil => exact succeeds_pure _
  | cons a rest ih =>
      rw [List.mapM_cons]
      obtain ⟨c, hc⟩ := h a (by simp)
      exact succeeds_bind (succeeds_bind ⟨c, Store.fetch_eq_ok.2 hc⟩ fun _ _ => succeeds_pure _)
        fun _ _ => succeeds_bind (ih fun b hb => h b (List.mem_cons_of_mem _ hb))
          fun _ _ => succeeds_pure _

/-- A constraint that is stored is given up or kept. -/
theorem Sweep.Pending.giveUp (hP : Manageable P n) (hp : s.Pending P n (h :: rest))
    (hc : s.store.get? h = some c) (p : Bool) :
    ∃ s', s.giveUp p h c = .ok s' ∧ s'.Pending P n rest := by
  have hwf := hp.formed h c hc
  obtain ⟨s', hdrop, hp'⟩ := hp.drop hP hc
  -- the clause can be dropped and can be kept, whatever the tests say
  have hboth : ∀ q : Bool, ∃ s',
      (if q then s.drop h c else pure (s.keep h) : Checked Sweep) = .ok s' ∧
        s'.Pending P n rest := by
    intro q
    cases q with
    | true => exact ⟨s', hdrop, hp'⟩
    | false => exact ⟨s.keep h, rfl, hp.keep⟩
  dsimp only [Sweep.giveUp]
  split
  next =>
      obtain ⟨l, hl⟩ : Succeeds c.head :=
        succeeds_fetch (Nat.lt_of_lt_of_le (by decide) (hP.two_le hwf))
      obtain ⟨locked, hlocked⟩ : Succeeds (s.trail.isReasonFor h l) := by
        rw [Constraint.head, fetch_eq_ok, ← Array.getElem?_toList] at hl
        exact Trail.succeeds_isReasonFor (hp.varCount ▸ hP.known hwf l (List.mem_of_getElem? hl))
      simp only [hl, ok_bind, hlocked]
      exact hboth _
  next => exact hboth false

/-- Giving up learnt clauses is not refused. -/
theorem exists_reduce (db : Database) (hP : Manageable P trail.varCount)
    (hnd : db.learnts.toList.Nodup)
    (hstored : ∀ a ∈ db.learnts.toList, ∃ c, store.get? a = some c)
    (hformed : ∀ a c, store.get? a = some c → P c) :
    ∃ db' s, db.reduce store trail = .ok (db', s) ∧
      ∀ x ∈ s.removed.toList, P x.2 := by
  obtain ⟨entries, hentries⟩ := succeeds_mapM_fetch hstored
  obtain ⟨hfst, hget⟩ := mapM_fetch hentries
  have hperm := hfst ▸ map_rank_perm entries
  -- the constraints that were looked up at the start are still those that are stored
  let Q : List ((Handle × Constraint) × Nat) → Sweep → Prop := fun rest s =>
    s.Pending P trail.varCount (rest.map fun x => x.1.1) ∧
      ∀ x ∈ rest, s.store.get? x.1.1 = some x.1.2
  have hstart : Q (rank entries).zipIdx (Sweep.start db store trail) := by
    refine ⟨⟨rfl, hperm.nodup_iff.2 hnd, fun a ha => hstored a (hperm.subset ha), hformed,
      by simp [Sweep.start]⟩, fun x hx => hget x.1 ?_⟩
    exact (rank_perm entries).subset (List.fst_mem_of_mem_zipIdx hx)
  obtain ⟨s', hfold, hp', -⟩ := succeeds_foldlM Q (fun x rest s hs => by
    obtain ⟨hp, hlater⟩ := hs
    have hc := hlater x List.mem_cons_self
    obtain ⟨s', hs', hp'⟩ := hp.giveUp hP hc (decide (x.2 < (rank entries).length / 2) ||
      decide (x.1.2.activity < db.increment / (rank entries).length.toFloat))
    have hnew : x.1.1 ∉ rest.map fun x => x.1.1 := (List.nodup_cons.1 hp.nodup).1
    refine ⟨s', hs', hp', fun y hy => ?_⟩
    rw [(treats_of_giveUp hc hs').get?_of_ne fun he => hnew (he ▸ List.mem_map_of_mem hy)]
    exact hlater y (List.mem_cons_of_mem _ hy)) hstart
  refine ⟨{ db with learnts := s'.kept, counts := s'.counts }, s', ?_, hp'.removed⟩
  simp only [reduce, bind_eq_ok, pure_eq_ok]
  exact ⟨entries, hentries, s', hfold, rfl⟩

/-- Giving up learnt clauses is not refused. -/
theorem succeeds_reduce (db : Database) (hnd : db.learnts.toList.Nodup)
    (hstored : ∀ a ∈ db.learnts.toList, ∃ c, store.get? a = some c)
    (hformed : ∀ a c, store.get? a = some c → c.WellFormed trail.varCount) :
    ∃ db' s, db.reduce store trail = .ok (db', s) ∧
      ∀ x ∈ s.removed.toList, x.2.WellFormed trail.varCount :=
  db.exists_reduce (Constraint.manageable_wellFormed _) hnd hstored hformed

end Database

end CardSat
