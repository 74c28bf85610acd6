import CardSat.Proofs.Database.Removal
import CardSat.Proofs.Propagation.Returning

set_option autoImplicit false

/-! # A truncation is not refused

A truncation looks up and frees constraints that are on the lists. As long as every constraint on a
list is stored, and each of them once, there is nothing to refuse.

`Sweep.Pending` is the invariant with the handles that are still to come: each is stored, none
occurs twice, and the variables of what is stored are known. Freeing a constraint asks for the
reasons of its literals, so the variables have to be known, and it asks for the constraint to be in
use, which is where the handles must differ.
-/

namespace CardSat

namespace Constraint

/-- What a sweep needs of the form of a constraint: at least two literals, all of the first `n`
variables. A clause may lose literals. -/
structure Manageable (P : Constraint → Prop) (n : Nat) : Prop where
  known : ∀ {c}, P c → ∀ l ∈ c.lits.toList, l.var.index < n
  two_le : ∀ {c}, P c → 2 ≤ c.size
  shorten : ∀ {c : Constraint} {lits : Array Lit}, P c → c.isAtMost = false →
    lits.toList.Subperm c.lits.toList → 2 ≤ lits.size → P { c with lits }

/-- Well formed constraints are such. -/
theorem manageable_wellFormed (n : Nat) : Manageable (·.WellFormed n) n where
  known hc := hc.known
  two_le hc := hc.two_le
  shorten hc ha hsub htwo := by
    refine ⟨?_, fun l hl => hc.known l (hsub.subset hl), htwo, fun k hk => ?_⟩
    · obtain ⟨ls, hls, hsublist⟩ := hsub
      exact (hls.map Lit.var).nodup_iff.1 (hc.distinct.sublist (hsublist.map Lit.var))
    · exact absurd hk (kind_ne_atMost ha k)

/-- At least two literals of the first `n` variables. -/
def Known (n : Nat) (c : Constraint) : Prop :=
  2 ≤ c.size ∧ ∀ l ∈ c.lits.toList, l.var.index < n

/-- So are those of which only the variables are known. -/
theorem manageable_known (n : Nat) : Manageable (Known n) n where
  known hc := hc.2
  two_le hc := hc.1
  shorten hc _ hsub htwo := ⟨htwo, fun l hl => hc.2 l (hsub.subset hl)⟩

end Constraint

namespace Database

variable {db : Database} {store : Store} {trail : Trail} {s : Sweep} {h : Handle}
  {c : Constraint} {P : Constraint → Prop} {n : Nat} {rest : List Handle}

open Constraint (Manageable)

namespace Sweep

/-- The constraints still to come are stored, and every constraint is of the form `P`. -/
structure Pending (P : Constraint → Prop) (n : Nat) (rest : List Handle) (s : Sweep) : Prop where
  varCount : s.trail.varCount = n
  nodup : rest.Nodup
  stored : ∀ a ∈ rest, ∃ c, s.store.get? a = some c
  formed : ∀ a c, s.store.get? a = some c → P c
  removed : ∀ x ∈ s.removed.toList, P x.2

namespace Pending

/-- A constraint that is kept leaves the others to come as they are. -/
theorem keep (hp : s.Pending P n (h :: rest)) : (s.keep h).Pending P n rest :=
  ⟨hp.varCount, (List.nodup_cons.1 hp.nodup).2,
    fun a ha => hp.stored a (List.mem_cons_of_mem _ ha), hp.formed, hp.removed⟩

/-- Clearing a constraint where it is a reason is not refused. -/
theorem succeeds_clear {ls : List Lit} (hk : ∀ l ∈ ls, l.var.index < trail.varCount) :
    ∃ trail', (ls.foldlM (fun (t : Trail) l => do
      if ← t.isReasonFor h l then t.clearReason l.var else return t) trail) = .ok trail' ∧
        trail'.varCount = trail.varCount := by
  let P : List Lit → Trail → Prop := fun rest t =>
    t.varCount = trail.varCount ∧ ∀ l ∈ rest, l.var.index < trail.varCount
  -- clearing a reason keeps the variables, so the next literal is known as well
  have hstep : ∀ l rest t, P (l :: rest) t → ∃ t', (do
      if ← t.isReasonFor h l then t.clearReason l.var else return t : Checked Trail) = .ok t' ∧
        P rest t' := by
    rintro l rest t ⟨hcount, hrest⟩
    have hl : l.var.index < t.varCount := hcount ▸ hrest l (by simp)
    have hrest' : ∀ m ∈ rest, m.var.index < trail.varCount := fun m hm =>
      hrest m (List.mem_cons_of_mem _ hm)
    simp only [bind_eq_ok]
    obtain ⟨b, hb⟩ : Succeeds (t.isReasonFor h l) := Trail.succeeds_isReasonFor hl
    cases b with
    | true =>
        obtain ⟨t', ht'⟩ := Trail.succeeds_clearReason hl
        exact ⟨t', ⟨true, hb, ht'⟩, (Trail.cleared_of_clearReason ht').varCount.trans hcount, hrest'⟩
    | false => exact ⟨t, ⟨false, hb, rfl⟩, hcount, hrest'⟩
  obtain ⟨trail', hfold, hcount, -⟩ := succeeds_foldlM P hstep (⟨rfl, hk⟩ : P ls trail)
  exact ⟨trail', hfold, hcount⟩

/-- A constraint still to come can be freed. -/
theorem drop (hP : Manageable P n) (hp : s.Pending P n (h :: rest))
    (hc : s.store.get? h = some c) : ∃ s', s.drop h c = .ok s' ∧ s'.Pending P n rest := by
  obtain ⟨hnew, hnd⟩ := List.nodup_cons.1 hp.nodup
  have hwf := hp.formed h c hc
  have hknown : ∀ l ∈ c.lits.toList, l.var.index < s.trail.varCount := fun l hl =>
    hp.varCount ▸ hP.known hwf l hl
  -- first the reasons are cleared, then the constraint is freed
  obtain ⟨trail, htrail, hcount⟩ := succeeds_clear (h := h) hknown
  have hlive : (!s.store.isDeleted h) = true := by simp [Store.isDeleted, hc]
  obtain ⟨_, hreq⟩ := succeeds_require .absent hlive
  obtain ⟨store, hstore⟩ : Succeeds (s.store.free h) :=
    succeeds_bind ⟨_, hreq⟩ fun _ _ => succeeds_pure _
  have hget := (Store.free_eq_ok hstore).2
  refine ⟨⟨store, trail, s.counts.remove c, s.kept, s.removed.push (h, c)⟩, ?_,
    hcount.trans hp.varCount, hnd, fun a ha => ?_, fun a d hd => ?_, fun x hx => ?_⟩
  · simp only [Sweep.drop, bind_eq_ok, pure_eq_ok]
    exact ⟨trail, htrail, store, hstore, rfl⟩
  · have hne : a ≠ h := fun he => hnew (he ▸ ha)
    obtain ⟨d, hd⟩ := hp.stored a (List.mem_cons_of_mem _ ha)
    refine ⟨d, ?_⟩
    show store.get? a = some d
    rw [hget, if_neg hne, hd]
  · have hd' : store.get? a = some d := hd
    rw [hget] at hd'
    split at hd'
    next => cases hd'
    next => exact hp.formed a d hd'
  · simp only [Array.toList_push, List.mem_append, List.mem_singleton] at hx
    rcases hx with hx | rfl
    · exact hp.removed x hx
    · exact hwf

end Pending

end Sweep

/-- A step of the pass over the learnt clauses is not refused. -/
theorem Sweep.Pending.cut {serial : Nat} (hP : Manageable P n)
    (hp : s.Pending P n (h :: rest)) : ∃ s', s.cut serial h = .ok s' ∧ s'.Pending P n rest := by
  obtain ⟨c, hc⟩ := hp.stored h List.mem_cons_self
  obtain ⟨s', hdrop, hp'⟩ := hp.drop hP hc
  simp only [Sweep.cut, bind_eq_ok, Store.fetch_eq_ok]
  cases hk : c.serial? with
  | none => exact ⟨s.keep h, ⟨c, hc, by rw [hk]; rfl⟩, hp.keep⟩
  | some k =>
      by_cases hlt : k < serial
      · exact ⟨s.keep h, ⟨c, hc, by rw [hk]; exact if_pos hlt⟩, hp.keep⟩
      · exact ⟨s', ⟨c, hc, by rw [hk]; exact (if_neg hlt).trans hdrop⟩, hp'⟩

/-- A truncation is not refused, and what it removes is of the form that everything had. -/
theorem exists_truncate {given serial units : Nat} (hP : Manageable P trail.varCount)
    (hnd : (db.given.toList ++ db.learnts.toList).Nodup)
    (hstored : ∀ a ∈ db.given.toList ++ db.learnts.toList, ∃ c, store.get? a = some c)
    (hformed : ∀ a c, store.get? a = some c → P c) :
    ∃ db' s, db.truncate store trail given serial units = .ok (db', s) ∧
      ∀ x ∈ s.removed.toList, P x.2 := by
  have hsub : ∀ a ∈ (db.given.toList.drop given).reverse ++ db.learnts.toList,
      a ∈ db.given.toList ++ db.learnts.toList := fun a ha => by
    rcases List.mem_append.1 ha with ha | ha
    · exact List.mem_append_left _ (List.mem_of_mem_drop (List.mem_reverse.1 ha))
    · exact List.mem_append_right _ ha
  have hstart : (Sweep.start db store trail).Pending P trail.varCount
      ((db.given.toList.drop given).reverse ++ db.learnts.toList) := by
    refine ⟨rfl, ?_, fun a ha => hstored a (hsub a ha), hformed, by simp [Sweep.start]⟩
    rw [((List.reverse_perm _).append_right _).nodup_iff]
    exact hnd.sublist ((List.drop_sublist _ _).append_right _)
  -- first the given constraints from a position on
  obtain ⟨s₁, hfold₁, hp₁⟩ := succeeds_foldlM
    (f := fun (s : Sweep) h => do s.drop h (← s.store.fetch h))
    (fun rest s => s.Pending P trail.varCount (rest ++ db.learnts.toList)) (fun a rest s hp => by
      obtain ⟨c, hc⟩ := hp.stored a (by simp)
      obtain ⟨s', hdrop, hp'⟩ := hp.drop hP hc
      exact ⟨s', by simp only [bind_eq_ok, Store.fetch_eq_ok]; exact ⟨c, hc, hdrop⟩, hp'⟩) hstart
  -- then the learnt clauses, with the handles that are still to come
  obtain ⟨s₂, hfold₂, hp₂⟩ := succeeds_foldlM
    (f := fun (s : Sweep) a => s.cut serial a) (fun rest s => s.Pending P trail.varCount rest)
    (fun _ _ _ hp => hp.cut hP) hp₁
  refine ⟨{ db with
    given := db.given.take given
    learnts := s₂.kept
    counts := s₂.counts
    nextSerial := min db.nextSerial serial
    units := db.units.take units }, s₂, ?_, hp₂.removed⟩
  simp only [truncate, bind_eq_ok, pure_eq_ok]
  refine ⟨s₁, hfold₁, s₂, ?_, rfl⟩
  rw [← Array.foldlM_toList]
  exact hfold₂

/-- Going back to a snapshot is not refused. -/
theorem succeeds_truncate {given serial units : Nat}
    (hnd : (db.given.toList ++ db.learnts.toList).Nodup)
    (hstored : ∀ a ∈ db.given.toList ++ db.learnts.toList, ∃ c, store.get? a = some c)
    (hformed : ∀ a c, store.get? a = some c → c.WellFormed trail.varCount) :
    ∃ db' s, db.truncate store trail given serial units = .ok (db', s) ∧
      ∀ x ∈ s.removed.toList, x.2.WellFormed trail.varCount :=
  exists_truncate (Constraint.manageable_wellFormed _) hnd hstored hformed

end Database

end CardSat
