import CardSat.Proofs.Database.Removal
import Mathlib.Algebra.GroupWithZero.Nat

set_option autoImplicit false

/-! # The counts of the database

The database keeps count of its constraints and of their literals while it stores, frees and
strengthens them. The counts are always those of its two lists (`Database.Tallied`): bumping an
activity leaves both alone, and storing a constraint adds to one list and to its counts.

The counts are natural numbers that are lowered by subtraction. Where a constraint is not counted,
subtracting it would stop at zero and leave the counts wrong for good. What is shown here is the
equality of counts and lists; that nothing is ever subtracted that was not counted follows from it
(`Sweep.covers_of_tallied`).

## The invariant of a sweep

A sweep treats one constraint after another. Whatever it does with one (`Sweep.Treats`), its counts
stay those of the constraints that it has kept and of those that are still to come
(`Sweep.Tallied`). The three sweeps differ in what they do with a constraint, so each is an instance
of one step lemma (`Sweep.Tallied.treat`) and of one run lemma (`Sweep.Tallied.run`).
-/

namespace CardSat

/-! ## Counting constraints and literals -/

namespace Store

/-- The number of literals of the constraint under a handle. -/
def litCount (s : Store) (h : Handle) : Nat := ((s.get? h).map Constraint.size).getD 0

/-- The number of handles in a list, and the number of literals of their constraints. -/
def tally (s : Store) (hs : List Handle) : Nat × Nat := (hs.length, (hs.map s.litCount).sum)

variable {s s' : Store} {h : Handle} {c : Constraint} {hs hs' : List Handle}

theorem litCount_of_get? (hc : s.get? h = some c) : s.litCount h = c.size := by
  rw [litCount, hc]
  rfl

/-- The literals under a handle are counted from what is stored there. -/
theorem litCount_congr (heq : s'.get? h = s.get? h) : s'.litCount h = s.litCount h := by
  rw [litCount, heq, litCount]

theorem Same.litCount_eq (hsame : s.Same s') : s'.litCount = s.litCount := by
  funext a
  cases hc : s.get? a with
  | some c =>
      obtain ⟨c', hc', hs⟩ := hsame.forth a c hc
      rw [litCount_of_get? hc, litCount_of_get? hc', hs.size_eq]
  | none =>
      cases hc' : s'.get? a with
      | none => rw [litCount, litCount, hc, hc']
      | some c' =>
          obtain ⟨c, hc₀, -⟩ := hsame.back a c' hc'
          rw [hc] at hc₀
          cases hc₀

/-- The order of a list does not matter. -/
theorem tally_perm (hp : hs.Perm hs') : s.tally hs = s.tally hs' := by
  rw [tally, tally, hp.length_eq, (hp.map s.litCount).sum_nat]

/-- A stored constraint at the head of a list adds one constraint and its literals. -/
theorem tally_cons (hc : s.get? h = some c) :
    s.tally (h :: hs) = ((s.tally hs).1 + 1, (s.tally hs).2 + c.size) := by
  rw [tally, List.map_cons, List.sum_cons, litCount_of_get? hc, Nat.add_comm]
  rfl

/-- The tally of a list depends on what is stored under its handles only. -/
theorem tally_congr (heq : ∀ a ∈ hs, s'.get? a = s.get? a) : s'.tally hs = s.tally hs := by
  rw [tally, tally, List.map_congr_left fun a ha => litCount_congr (heq a ha)]

end Store

namespace Counts

/-- The counts of the learnt clauses, or those of the given constraints. -/
def ofOrigin (n : Counts) (learnt : Bool) : Nat × Nat :=
  if learnt then (n.learnts, n.learntLits) else (n.given, n.givenLits)

variable (n : Counts) (c : Constraint) (b : Bool)

/-- A constraint is added to the counts of its own origin. -/
theorem ofOrigin_add : (n.add c).ofOrigin b =
    if c.isLearnt = b then ((n.ofOrigin b).1 + 1, (n.ofOrigin b).2 + c.size) else n.ofOrigin b := by
  cases b <;> cases hc : c.isLearnt <;> simp [add, ofOrigin, hc]

/-- A constraint is subtracted from the counts of its own origin. -/
theorem ofOrigin_remove : (n.remove c).ofOrigin b =
    if c.isLearnt = b then ((n.ofOrigin b).1 - 1, (n.ofOrigin b).2 - c.size) else n.ofOrigin b := by
  cases b <;> cases hc : c.isLearnt <;> simp [remove, ofOrigin, hc]

end Counts

namespace Database

variable {db db' : Database} {store store' : Store} {trail : Trail} {s s' : Sweep} {h : Handle}
  {c : Constraint}

/-- The counts are those of the lists. -/
structure Tallied (db : Database) (store : Store) : Prop where
  given : db.counts.given = db.given.size
  learnts : db.counts.learnts = db.learnts.size
  givenLits : db.counts.givenLits = (db.given.toList.map store.litCount).sum
  learntLits : db.counts.learntLits = (db.learnts.toList.map store.litCount).sum

/-- The four counts are the tallies of the two lists. -/
theorem tallied_iff : db.Tallied store ↔
    db.counts.ofOrigin false = store.tally db.given.toList ∧
      db.counts.ofOrigin true = store.tally db.learnts.toList := by
  constructor
  · rintro ⟨hgiven, hlearnts, hgivenLits, hlearntLits⟩
    simp [Counts.ofOrigin, Store.tally, hgiven, hlearnts, hgivenLits, hlearntLits]
  · rintro ⟨hgiven, hlearnts⟩
    obtain ⟨hgiven, hgivenLits⟩ := Prod.mk.inj hgiven
    obtain ⟨hlearnts, hlearntLits⟩ := Prod.mk.inj hlearnts
    exact ⟨by simpa using hgiven, by simpa using hlearnts, hgivenLits, hlearntLits⟩

/-- Only the lists, the counts and the sizes of the constraints matter. -/
theorem Tallied.congr (ht : db.Tallied store) (hgiven : db'.given = db.given)
    (hlearnts : db'.learnts = db.learnts) (hcounts : db'.counts = db.counts)
    (hlits : store'.litCount = store.litCount) : db'.Tallied store' where
  given := by
    rw [hcounts, hgiven]
    exact ht.given
  learnts := by
    rw [hcounts, hlearnts]
    exact ht.learnts
  givenLits := by
    rw [hcounts, hgiven, hlits]
    exact ht.givenLits
  learntLits := by
    rw [hcounts, hlearnts, hlits]
    exact ht.learntLits

/-! ## Adding -/

/-- Bumping an activity counts nothing. -/
theorem counts_of_bump (hb : db.bump store h = .ok (db', store')) : db'.counts = db.counts := by
  simp only [bump, bind_eq_ok] at hb
  obtain ⟨c, -, hb⟩ := hb
  split at hb
  next =>
      split at hb
      next =>
          simp only [bind_eq_ok, pure_eq_ok, Prod.mk.injEq] at hb
          obtain ⟨_, -, rfl, -⟩ := hb
          rfl
      next => rw [← (Prod.mk.inj (pure_eq_ok.1 hb)).1]
  next => rw [← (Prod.mk.inj (pure_eq_ok.1 hb)).1]

/-- A constraint was stored under a handle that is on no list. -/
theorem tally_of_fresh {hs : List Handle} (hc : store'.get? h = some c)
    (hold : ∀ a, a ≠ h → store'.get? a = store.get? a) (hnew : h ∉ hs) :
    store'.tally (hs ++ [h]) = ((store.tally hs).1 + 1, (store.tally hs).2 + c.size) ∧
      store'.tally hs = store.tally hs := by
  have hsame : store'.tally hs = store.tally hs :=
    Store.tally_congr fun a ha => hold a fun he => hnew (he ▸ ha)
  refine ⟨?_, hsame⟩
  rw [Store.tally_perm (List.perm_append_singleton h hs), Store.tally_cons hc, hsame]

/-- The counts follow a given constraint that is added. -/
theorem tallied_of_addGiven {kind : Kind} {lits : Array Lit} (hk : ∀ a s, kind ≠ .learnt a s)
    (hl : db.Listed store) (ht : db.Tallied store)
    (ha : db.addGiven store kind lits = .ok (h, db', store')) : db'.Tallied store' := by
  obtain ⟨hadded, -, hgiven, hlearnts, -⟩ := added_of_addGiven hk hl ha
  have hnew := hl.not_mem_fresh hadded.fresh
  simp only [List.mem_append, not_or] at hnew
  have hc : store'.get? h = some ⟨kind, lits⟩ := by rw [hadded.get?, if_pos rfl]
  have hold : ∀ a, a ≠ h → store'.get? a = store.get? a := fun a hne => by
    rw [hadded.get?, if_neg hne]
  have hcounts : db'.counts = db.counts.add ⟨kind, lits⟩ := by
    simp only [addGiven, bind_eq_ok, pure_eq_ok, Prod.mk.injEq] at ha
    obtain ⟨_, -, -, rfl, -⟩ := ha
    rfl
  have horigin : (⟨kind, lits⟩ : Constraint).isLearnt = false := by
    rw [Constraint.isLearnt]
    split
    next a s hk' => exact absurd hk' (hk a s)
    next => rfl
  obtain ⟨htg, htl⟩ := tallied_iff.1 ht
  refine tallied_iff.2 ⟨?_, ?_⟩
  · rw [hcounts, Counts.ofOrigin_add, if_pos horigin, hgiven, Array.toList_push,
      (tally_of_fresh hc hold hnew.1).1, htg]
  · rw [hcounts, Counts.ofOrigin_add, if_neg (by simp [horigin]), hlearnts,
      (tally_of_fresh hc hold hnew.2).2, htl]

/-- The counts follow a clause that is learnt. -/
theorem tallied_of_learn {lits : Array Lit} (hl : db.Listed store) (ht : db.Tallied store)
    (ha : db.learn store lits = .ok (h, db', store')) : db'.Tallied store' := by
  obtain ⟨store₁, hadded, hrel, -, hgiven, hlearnts, -⟩ := added_of_learn hl ha
  have hnew := hl.not_mem_fresh hadded.fresh
  simp only [List.mem_append, not_or] at hnew
  have hc : store₁.get? h = some ⟨.learnt 0.0 db.nextSerial, lits⟩ := by
    rw [hadded.get?, if_pos rfl]
  have hold : ∀ a, a ≠ h → store₁.get? a = store.get? a := fun a hne => by
    rw [hadded.get?, if_neg hne]
  have hcounts : db'.counts = db.counts.add ⟨.learnt 0.0 db.nextSerial, lits⟩ := by
    simp only [learn, bind_eq_ok, pure_eq_ok, Prod.mk.injEq] at ha
    obtain ⟨_, -, ⟨db₁, _⟩, hbump, -, rfl, -⟩ := ha
    exact counts_of_bump hbump
  have hsize : store'.tally = store₁.tally := by
    funext hs
    rw [Store.tally, hrel.same.litCount_eq, Store.tally]
  obtain ⟨htg, htl⟩ := tallied_iff.1 ht
  refine tallied_iff.2 ⟨?_, ?_⟩
  · rw [hcounts, Counts.ofOrigin_add, if_neg (by simp [Constraint.isLearnt]), hgiven, hsize,
      (tally_of_fresh hc hold hnew.1).2, htg]
  · rw [hcounts, Counts.ofOrigin_add, if_pos (by simp [Constraint.isLearnt]), hlearnts,
      Array.toList_push, hsize,
      (tally_of_fresh hc hold hnew.2).1, htl]

/-! ## Sweeping -/

/-- What freeing a constraint does. -/
theorem dropped_of_drop (hd : s.drop h c = .ok s') :
    (∀ a, s'.store.get? a = if a = h then none else s.store.get? a) ∧
      s'.counts = s.counts.remove c ∧ s'.kept = s.kept := by
  simp only [Sweep.drop, bind_eq_ok, pure_eq_ok] at hd
  obtain ⟨trail, -, store, hstore, rfl⟩ := hd
  exact ⟨(Store.free_eq_ok hstore).2, rfl, rfl⟩

/-- What a sweep may do with a constraint: keep it, free it, or strengthen it and keep it. -/
inductive Sweep.Treats (h : Handle) (s : Sweep) : Sweep → Prop
  | keep : Treats h s (s.keep h)
  | drop {c : Constraint} {s' : Sweep} (hc : s.store.get? h = some c) (hd : s.drop h c = .ok s') :
      Treats h s s'
  | strengthen {c c' : Constraint} (hc : s.store.get? h = some c) (hkind : c'.kind = c.kind)
      (htwo : 2 ≤ c.size → 2 ≤ c'.size) :
      Treats h s (Sweep.keep { s with
        store := s.store.put h c', counts := (s.counts.remove c).add c' } h)

/-- The other constraints are left alone. -/
theorem Sweep.Treats.get?_of_ne {a : Handle} (hs : Sweep.Treats h s s') (hne : a ≠ h) :
    s'.store.get? a = s.store.get? a := by
  cases hs with
  | keep => rfl
  | drop hc hd => rw [(dropped_of_drop hd).1, if_neg hne]
  | @strengthen c c' hc hkind htwo =>
      show (s.store.put h c').get? a = s.store.get? a
      rw [Store.get?_put hc, if_neg hne]

/-- The removal of satisfied constraints treats a constraint in one of the three ways. -/
theorem treats_of_sweepSatisfied {st : Bool} (hok : sweepSatisfied st s h = .ok s') :
    Sweep.Treats h s s' := by
  simp only [sweepSatisfied, bind_eq_ok, Store.fetch_eq_ok] at hok
  obtain ⟨c, hc, b, -, hok⟩ := hok
  cases b with
  | true => exact .drop hc hok
  | false =>
      simp only [Bool.false_eq_true, if_false] at hok
      split at hok
      next =>
          simp only [bind_eq_ok, pure_eq_ok] at hok
          obtain ⟨c', hc', rfl⟩ := hok
          have hkind : c'.kind = c.kind := by
            simp only [Constraint.retainSuffix, bind_eq_ok, pure_eq_ok] at hc'
            obtain ⟨_, -, rfl⟩ := hc'
            rfl
          refine .strengthen hc hkind fun htwo => ?_
          refine (Constraint.retainSuffix_eq_ok (p := fun l => !decide (s.trail.truth l = .no))
            (fun l r hr => ?_) htwo hc').2.2
          simp only [bind_eq_ok, pure_eq_ok] at hr
          obtain ⟨x, hx, rfl⟩ := hr
          rw [(Trail.isFalse_eq_ok hx).2]
      next =>
          obtain rfl := pure_eq_ok.1 hok
          exact .keep

/-- Giving up learnt clauses keeps a clause or frees it. -/
theorem treats_of_giveUp {p : Bool} (hc : s.store.get? h = some c)
    (hok : s.giveUp p h c = .ok s') : Sweep.Treats h s s' := by
  rcases giveUp_eq_ok hok with hd | rfl
  · exact .drop hc hd
  · exact .keep

/-- Going back to a snapshot keeps a clause or frees it. -/
theorem treats_of_cut {serial : Nat} (hok : s.cut serial h = .ok s') : Sweep.Treats h s s' := by
  simp only [Sweep.cut, bind_eq_ok, Store.fetch_eq_ok] at hok
  obtain ⟨c, hc, hok⟩ := hok
  split at hok
  next =>
      split at hok
      next =>
          obtain rfl := pure_eq_ok.1 hok
          exact .keep
      next => exact .drop hc hok
  next =>
      obtain rfl := pure_eq_ok.1 hok
      exact .keep

/-- The counts in the middle of a sweep over one of the lists. The constraints of that list are the
`same` ones, which it does not look at, those that it has kept and those that are to come; the
`others` are those of the other list. -/
structure Sweep.Tallied (learnt : Bool) (same others rest : List Handle) (s : Sweep) : Prop where
  swept : s.counts.ofOrigin learnt = s.store.tally (same ++ s.kept.toList ++ rest)
  untouched : s.counts.ofOrigin (!learnt) = s.store.tally others
  nodup : (others ++ (same ++ s.kept.toList ++ rest)).Nodup
  origin : ∀ a ∈ rest, ∀ c, s.store.get? a = some c → c.isLearnt = learnt

namespace Sweep.Tallied

variable {learnt : Bool} {same others rest as : List Handle}

/-- A constraint that is treated is on the lists once. -/
theorem mem_rest (ht : s.Tallied learnt same others (h :: rest)) :
    (∀ a ∈ others ++ (same ++ s.kept.toList ++ rest), a ≠ h) ∧
      (others ++ (same ++ s.kept.toList ++ rest)).Nodup := by
  have hperm : (others ++ (same ++ s.kept.toList ++ h :: rest)).Perm
      (h :: (others ++ (same ++ s.kept.toList ++ rest))) :=
    (List.perm_middle.append_left others).trans List.perm_middle
  obtain ⟨hnew, hnd⟩ := List.nodup_cons.1 (hperm.nodup_iff.1 ht.nodup)
  exact ⟨fun a ha he => hnew (he ▸ ha), hnd⟩

/-- The constraint that a sweep comes to next is among those it counts. -/
theorem tally_rest (ht : s.Tallied learnt same others (h :: rest))
    (hc : s.store.get? h = some c) : s.counts.ofOrigin learnt =
      ((s.store.tally (same ++ s.kept.toList ++ rest)).1 + 1,
        (s.store.tally (same ++ s.kept.toList ++ rest)).2 + c.size) := by
  rw [ht.swept, Store.tally_perm List.perm_middle, Store.tally_cons hc]

/-- Whatever is done with the next constraint, the counts stay right. -/
theorem treat (ht : s.Tallied learnt same others (h :: rest)) (hs : Sweep.Treats h s s') :
    s'.Tallied learnt same others rest := by
  obtain ⟨hne, hnd⟩ := ht.mem_rest
  have hsame : ∀ as : List Handle, (∀ a ∈ as, a ∈ others ++ (same ++ s.kept.toList ++ rest)) →
      s'.store.tally as = s.store.tally as := fun as hin =>
    Store.tally_congr fun a ha => hs.get?_of_ne (hne a (hin a ha))
  -- a constraint that is kept moves from those to come to those that are kept
  have hlist : same ++ (s.kept.push h).toList ++ rest = same ++ s.kept.toList ++ h :: rest := by
    simp
  have horigin : ∀ a ∈ rest, ∀ c, s'.store.get? a = some c → c.isLearnt = learnt :=
    fun a ha c hc => ht.origin a (List.mem_cons_of_mem _ ha) c <| by
      rw [← hs.get?_of_ne (hne a (by simp [ha])), hc]
  cases hs with
  | keep => exact ⟨hlist ▸ ht.swept, ht.untouched, hlist ▸ ht.nodup, horigin⟩
  | drop hc hd =>
      obtain ⟨-, hcounts, hkept⟩ := dropped_of_drop hd
      have hlearnt := ht.origin h List.mem_cons_self _ hc
      refine ⟨?_, ?_, hkept ▸ hnd, horigin⟩
      · rw [hcounts, Counts.ofOrigin_remove, if_pos hlearnt, ht.tally_rest hc, hkept,
          hsame _ fun a ha => List.mem_append_right _ ha]
        simp
      · rw [hcounts, Counts.ofOrigin_remove, if_neg (by simp [hlearnt]), ht.untouched,
          hsame _ fun a ha => List.mem_append_left _ ha]
  | @strengthen c c' hc hkind htwo =>
      have hlearnt := ht.origin h List.mem_cons_self _ hc
      have hlearnt' : c'.isLearnt = learnt := by
        rw [Constraint.isLearnt, hkind]
        exact hlearnt
      have hc' : (s.store.put h c').get? h = some c' := by rw [Store.get?_put hc, if_pos rfl]
      refine ⟨?_, ?_, hlist ▸ ht.nodup, horigin⟩
      · -- the clause is counted out with its old literals and in with the new ones
        show ((s.counts.remove c).add c').ofOrigin learnt = (s.store.put h c').tally _
        have hkept := hsame (same ++ s.kept.toList ++ rest) fun a ha => List.mem_append_right _ ha
        rw [Counts.ofOrigin_add, if_pos hlearnt', Counts.ofOrigin_remove, if_pos hlearnt,
          ht.tally_rest hc]
        show _ = (s.store.put h c').tally (same ++ (s.kept.push h).toList ++ rest)
        rw [hlist, Store.tally_perm List.perm_middle, Store.tally_cons hc']
        simp only [Nat.add_sub_cancel]
        rw [← hkept]
        rfl
      · show ((s.counts.remove c).add c').ofOrigin (!learnt) = _
        rw [Counts.ofOrigin_add, if_neg (by simp [hlearnt']), Counts.ofOrigin_remove,
          if_neg (by simp [hlearnt]), ht.untouched, hsame _ fun a ha => List.mem_append_left _ ha]

/-- A whole sweep, which leaves the other list alone. -/
theorem run {f : Sweep → Handle → Checked Sweep}
    (hf : ∀ h s s', f s h = .ok s' → Sweep.Treats h s s') (ht : s.Tallied learnt same others as)
    (hok : as.foldlM f s = .ok s') :
    s'.Tallied learnt same others [] ∧ ∀ a ∈ others, s'.store.get? a = s.store.get? a := by
  let P : List Handle → Sweep → Prop := fun rest s₁ =>
    s₁.Tallied learnt same others rest ∧ ∀ a ∈ others, s₁.store.get? a = s.store.get? a
  refine foldlM_ok P ?_ ⟨ht, fun _ _ => rfl⟩ hok
  rintro h rest s₁ s₂ ⟨hs₁, hothers⟩ hstep
  have htreats := hf h s₁ s₂ hstep
  exact ⟨hs₁.treat htreats, fun a ha =>
    (htreats.get?_of_ne (hs₁.mem_rest.1 a (List.mem_append_left _ ha))).trans (hothers a ha)⟩

/-- After one list it is the turn of the other one. -/
theorem turn (ht : s.Tallied learnt same others [])
    (horigin : ∀ a ∈ others, ∀ c, s.store.get? a = some c → c.isLearnt = !learnt) :
    Sweep.Tallied (!learnt) [] (same ++ s.kept.toList) others { s with kept := #[] } where
  swept := ht.untouched
  untouched := by
    rw [Bool.not_not]
    exact ht.swept.trans (by rw [List.append_nil])
  nodup := List.nodup_append_comm.1 (by simpa using ht.nodup)
  origin := horigin

end Sweep.Tallied

/-! ### The three sweeps -/

/-- The list of the learnt clauses holds learnt clauses. -/
theorem Listed.isLearnt (hl : db.Listed store) (hh : h ∈ db.learnts.toList)
    (hc : store.get? h = some c) : c.isLearnt = true := by
  obtain ⟨k, hk, -⟩ := hl.learnts h hh c hc
  rw [Constraint.serial?] at hk
  rw [Constraint.isLearnt]
  cases hkind : c.kind <;> simp [hkind] at hk ⊢

/-- Before a sweep over the learnt clauses, which it may go through in any order. -/
theorem Tallied.start {as : List Handle} (hl : db.Listed store) (ht : db.Tallied store)
    (hperm : as.Perm db.learnts.toList) :
    (Sweep.start db store trail).Tallied true [] db.given.toList as where
  swept := (tallied_iff.1 ht).2.trans (Store.tally_perm hperm).symm
  untouched := (tallied_iff.1 ht).1
  nodup := (hperm.append_left _).nodup_iff.2 hl.nodup
  origin _ ha _ hc := hl.isLearnt (hperm.mem_iff.1 ha) hc

/-- The counts are right after learnt clauses are given up. -/
theorem tallied_of_reduce (hl : db.Listed store) (ht : db.Tallied store)
    (hr : db.reduce store trail = .ok (db', s)) : db'.Tallied s.store := by
  obtain ⟨xs, p, hperm, hxs, hfold, rfl⟩ := reduce_eq_ok hl hr
  -- what is still to come is stored as it was looked up before the sweep
  let P : List ((Handle × Constraint) × Nat) → Sweep → Prop := fun rest s₁ =>
    s₁.Tallied true [] db.given.toList (rest.map fun x => x.1.1) ∧
      ∀ x ∈ rest, s₁.store.get? x.1.1 = some x.1.2
  have hend : P [] s := by
    refine foldlM_ok P ?_ ⟨ht.start hl hperm, fun x hx => (hxs x hx).1⟩ hfold
    rintro x rest s₁ s₂ ⟨hs₁, hstored⟩ hstep
    have htreats := treats_of_giveUp (hstored x (by simp)) hstep
    refine ⟨hs₁.treat htreats, fun y hy => ?_⟩
    rw [htreats.get?_of_ne (hs₁.mem_rest.1 y.1.1 (by
      simp only [List.mem_append]
      exact Or.inr (Or.inr (List.mem_map_of_mem hy)))), hstored y (by simp [hy])]
  exact tallied_iff.2 ⟨hend.1.untouched, by simpa using hend.1.swept⟩

/-- The counts are right after satisfied constraints are removed. -/
theorem tallied_of_removeSatisfied {givenToo st : Bool} (hl : db.Listed store)
    (ht : db.Tallied store)
    (hok : db.removeSatisfied store trail givenToo st = .ok (db', s)) : db'.Tallied s.store := by
  simp only [removeSatisfied, bind_eq_ok, require_eq_ok] at hok
  obtain ⟨_, -, s₁, hfold, hok⟩ := hok
  rw [← Array.foldlM_toList] at hfold
  obtain ⟨hs₁, hgiven⟩ := (ht.start hl (.refl _)).run (fun _ _ _ => treats_of_sweepSatisfied) hfold
  split at hok
  next =>
      simp only [bind_eq_ok, pure_eq_ok, Prod.mk.injEq] at hok
      obtain ⟨s₂, hfold₂, rfl, rfl⟩ := hok
      rw [← Array.foldlM_toList] at hfold₂
      have hturn := hs₁.turn fun a ha c hc => hl.given a ha c ((hgiven a ha).symm.trans hc)
      obtain ⟨hs₂, -⟩ := hturn.run (fun _ _ _ => treats_of_sweepSatisfied) hfold₂
      exact tallied_iff.2 ⟨by simpa using hs₂.swept, by simpa using hs₂.untouched⟩
  next =>
      simp only [pure_eq_ok, Prod.mk.injEq] at hok
      obtain ⟨rfl, rfl⟩ := hok
      exact tallied_iff.2 ⟨hs₁.untouched, by simpa using hs₁.swept⟩

/-- Dropping every constraint of a list. -/
theorem Sweep.Tallied.drops {learnt : Bool} {same others as : List Handle}
    (ht : s.Tallied learnt same others as)
    (hok : as.foldlM (fun (s : Sweep) h => do s.drop h (← s.store.fetch h)) s = .ok s') :
    s'.Tallied learnt same others [] ∧ (∀ a ∈ others, s'.store.get? a = s.store.get? a) ∧
      s'.kept = s.kept := by
  have hstep : ∀ (h : Handle) (s s' : Sweep),
      (do s.drop h (← s.store.fetch h) : Checked Sweep) = .ok s' →
        ∃ c, s.store.get? h = some c ∧ s.drop h c = .ok s' := by
    intro h s s' hd
    simpa only [bind_eq_ok, Store.fetch_eq_ok] using hd
  obtain ⟨hs', hothers⟩ := ht.run (fun h s s' hd => by
    obtain ⟨c, hc, hd⟩ := hstep h s s' hd
    exact .drop hc hd) hok
  refine ⟨hs', hothers, foldlM_ok (fun _ s₁ => s₁.kept = s.kept) ?_ rfl hok⟩
  intro h rest s₁ s₂ hkept hd
  obtain ⟨c, -, hd⟩ := hstep h s₁ s₂ hd
  exact (dropped_of_drop hd).2.2.trans hkept

/-- Before a sweep over the given constraints from a position on, the last one first. -/
theorem Tallied.start_given (hl : db.Listed store) (ht : db.Tallied store)
    (trail : Trail) (given : Nat) :
    (Sweep.start db store trail).Tallied false (db.given.toList.take given) db.learnts.toList
      (db.given.toList.drop given).reverse := by
  have hall : (db.given.toList.take given ++ (db.given.toList.drop given).reverse).Perm
      db.given.toList := by
    refine ((List.reverse_perm _).append_left _).trans ?_
    rw [List.take_append_drop]
  refine ⟨?_, (tallied_iff.1 ht).2, ?_, fun a ha c hc => ?_⟩
  · have hgiven := (tallied_iff.1 ht).1.trans (Store.tally_perm hall).symm
    simpa [Sweep.start] using hgiven
  · have hperm := (hall.append_left db.learnts.toList).nodup_iff.2
      (List.nodup_append_comm.1 hl.nodup)
    simpa [Sweep.start] using hperm
  · exact hl.given a (List.mem_of_mem_drop (List.mem_reverse.1 ha)) c hc

/-- The counts are right after the lists are cut back to a snapshot. -/
theorem tallied_of_truncate {given serial units : Nat} (hl : db.Listed store)
    (ht : db.Tallied store)
    (hok : db.truncate store trail given serial units = .ok (db', s)) : db'.Tallied s.store := by
  simp only [truncate, bind_eq_ok, pure_eq_ok, Prod.mk.injEq] at hok
  obtain ⟨s₁, hfold₁, s₂, hfold₂, rfl, rfl⟩ := hok
  -- first the given constraints from a position on
  have hstart := ht.start_given hl trail given
  obtain ⟨hs₁, hlearnts, hkept⟩ := hstart.drops hfold₁
  -- then the learnt clauses from a serial number on
  rw [← Array.foldlM_toList] at hfold₂
  have hturn := hs₁.turn fun a ha c hc => hl.isLearnt ha ((hlearnts a ha).symm.trans hc)
  have heq : { s₁ with kept := #[] } = s₁ := by
    rw [show (#[] : Array Handle) = s₁.kept from hkept.symm]
  rw [heq, hkept] at hturn
  obtain ⟨hs₂, -⟩ := hturn.run (fun _ _ _ => treats_of_cut) hfold₂
  exact tallied_iff.2 ⟨by simpa [Sweep.start] using hs₂.untouched, by simpa using hs₂.swept⟩

end Database

end CardSat
