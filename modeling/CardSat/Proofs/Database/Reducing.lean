import CardSat.Proofs.Database.Counts
import CardSat.Proofs.Float

set_option autoImplicit false

/-! # Giving up learnt clauses

`reduce` ranks the learnt clauses, those of two literals last and the less active of the others
first, and goes through the ranking (`Database.Ranking`). Where the activities can be compared, the
ranking is that of a total order, and a stable one.

What is given up at a place of the ranking (`Database.GivesUp`) depends only on the clause, on its
place and on the trail, which stays as it is: the only literal that a clause may be the reason of is
its first one. So the outcome can be read off the ranking (`Database.Reduces`).
-/

namespace CardSat

namespace Constraint

variable {c d : Constraint}

/-- The activities of two clauses can be compared. -/
def Comparable (c d : Constraint) : Prop := c.activity ≤ d.activity ∨ d.activity ≤ c.activity

instance (c d : Constraint) : Decidable (c.Comparable d) :=
  inferInstanceAs (Decidable (c.activity ≤ d.activity ∨ d.activity ≤ c.activity))

/-- A clause is ranked no later than another one: the other one has two literals, or it has more and
is at least as active. -/
def Precedes (c d : Constraint) : Prop := d.size = 2 ∨ c.size ≠ 2 ∧ c.activity ≤ d.activity

/-- The place of a clause in a total order. -/
def place (c : Constraint) : WithTop (Int ×ₗ Int ×ₗ Int) :=
  if c.size = 2 then ⊤ else floatRank c.activity

theorem precedes_iff (h : c.Comparable d) : c.Precedes d ↔ c.place ≤ d.place := by
  rw [Precedes, place, place, float_le_iff_of_comparable h]
  by_cases hc : c.size = 2 <;> by_cases hd : d.size = 2 <;> simp [hc, hd]

/-- The comparison by which the clauses are sorted is that of their places. -/
theorem isLE_givenUpBefore (h : c.Comparable d) :
    (Database.givenUpBefore c d).isLE = decide (c.place ≤ d.place) := by
  rw [Database.givenUpBefore, place, place]
  by_cases hc : c.size = 2
  · by_cases hd : d.size = 2 <;> simp [hc, hd]
  · by_cases hd : d.size = 2
    · simp [hc, hd]
    · simp only [hc, hd, if_false, false_and, WithTop.coe_le_coe, gt_iff_lt,
        float_lt_iff_of_comparable h, float_lt_iff_of_comparable h.symm]
      rcases lt_trichotomy (floatRank c.activity) (floatRank d.activity) with hlt | heq | hgt
      · simp [hlt, hlt.le]
      · simp [heq]
      · simp [hgt, hgt.not_gt]

end Constraint

namespace Database

variable {db db' : Database} {store : Store} {t : Trail} {s s' : Sweep} {n : Network}
  {ranked entries : List (Handle × Constraint)}

/-! ## The ranking -/

/-- The activities of the learnt clauses can be compared. -/
def Comparable (db : Database) (store : Store) : Prop :=
  ∀ a ∈ db.learnts.toList, ∀ b ∈ db.learnts.toList,
    ∀ c ∈ store.get? a, ∀ d ∈ store.get? b, c.Comparable d

instance (db : Database) (store : Store) : Decidable (db.Comparable store) :=
  inferInstanceAs (Decidable (∀ a ∈ db.learnts.toList, ∀ b ∈ db.learnts.toList,
    ∀ c ∈ store.get? a, ∀ d ∈ store.get? b, c.Comparable d))

/-- The learnt clauses in the order of their activities, those of two literals last. Two clauses
that are listed in this order already are not exchanged. -/
structure Ranking (db : Database) (store : Store) (ranked : List (Handle × Constraint)) : Prop where
  perm : (ranked.map Prod.fst).Perm db.learnts.toList
  stored : ∀ x ∈ ranked, store.get? x.1 = some x.2
  sorted : ranked.Pairwise fun x y => x.2.Precedes y.2
  stable : ∀ x ∈ ranked, ∀ y ∈ ranked, x.2.Precedes y.2 →
    [x.1, y.1].Sublist db.learnts.toList → [x, y].Sublist ranked

/-- A list of stored constraints is given by its handles. -/
theorem sublist_of_map_fst {xs ys : List (Handle × Constraint)}
    (hxs : ∀ x ∈ xs, store.get? x.1 = some x.2) (hys : ∀ x ∈ ys, store.get? x.1 = some x.2)
    (h : (xs.map Prod.fst).Sublist (ys.map Prod.fst)) : xs.Sublist ys := by
  obtain ⟨zs, hzs, heq⟩ := List.sublist_map_iff.1 h
  have hget : ∀ {as : List (Handle × Constraint)}, (∀ x ∈ as, store.get? x.1 = some x.2) →
      as.map some = (as.map Prod.fst).map fun a => (store.get? a).map fun c => (a, c) := by
    intro as has
    rw [List.map_map]
    exact List.map_congr_left fun x hx => by simp [has x hx]
  have hsome : xs.map some = zs.map some := by
    rw [hget hxs, hget fun x hx => hys x (hzs.subset hx), heq]
  rwa [(List.map_injective_iff.2 (Option.some_injective _)) hsome]

/-- Whether the first clause has no later place than the second one. -/
noncomputable def byPlace (x y : Handle × Constraint) : Bool := decide (x.2.place ≤ y.2.place)

/-- The order of the places is transitive. -/
theorem byPlace_trans (x y z : Handle × Constraint) (hxy : byPlace x y = true)
    (hyz : byPlace y z = true) : byPlace x z = true :=
  decide_eq_true (le_trans (of_decide_eq_true hxy) (of_decide_eq_true hyz))

/-- It is total. -/
theorem byPlace_total (x y : Handle × Constraint) : (byPlace x y || byPlace y x) = true := by
  simp only [byPlace, Bool.or_eq_true, decide_eq_true_iff]
  exact le_total _ _

/-- Where no activity is a NaN, the sort by the program's comparison is the sort by places. -/
theorem rank_eq (hc : ∀ x ∈ entries, ∀ y ∈ entries, x.2.Comparable y.2) :
    rank entries = entries.mergeSort byPlace := by
  have hmap : (rank entries).map id = (entries.map id).mergeSort byPlace :=
    List.map_mergeSort fun x hx y hy => Constraint.isLE_givenUpBefore (hc x hx y hy)
  simpa using hmap

/-- The sort is a stable ranking of the learnt clauses. -/
theorem ranking_of_rank (hcmp : db.Comparable store)
    (hfst : entries.map Prod.fst = db.learnts.toList)
    (hget : ∀ x ∈ entries, store.get? x.1 = some x.2) : db.Ranking store (rank entries) := by
  have hmem : ∀ x ∈ entries, x.1 ∈ db.learnts.toList := fun x hx =>
    hfst ▸ List.mem_map_of_mem hx
  -- the comparison is a total order on the clauses at hand, but not on all clauses, so it is
  -- replaced by that of the places before the sort is looked at
  have hc : ∀ x ∈ entries, ∀ y ∈ entries, x.2.Comparable y.2 := fun x hx y hy =>
    hcmp x.1 (hmem x hx) y.1 (hmem y hy) x.2 (hget x hx) y.2 (hget y hy)
  have hsub := (rank_perm entries).subset
  have hiff : ∀ x ∈ rank entries, ∀ y ∈ rank entries, x.2.Precedes y.2 ↔ byPlace x y = true :=
    fun x hx y hy => by
      rw [Constraint.precedes_iff (hc x (hsub hx) y (hsub hy)), byPlace, decide_eq_true_iff]
  have hstored : ∀ x ∈ rank entries, store.get? x.1 = some x.2 := fun x hx => hget x (hsub hx)
  refine ⟨hfst ▸ (rank_perm entries).map Prod.fst, hstored, ?_, fun x hx y hy hxy hlisted => ?_⟩
  · have hsorted := List.pairwise_mergeSort byPlace_trans byPlace_total entries
    rw [← rank_eq hc] at hsorted
    exact hsorted.imp_of_mem fun hx hy hxy => (hiff _ hx _ hy).2 hxy
  · have hpair : [x, y].Sublist entries := by
      refine sublist_of_map_fst (fun z hz => ?_) hget (hfst ▸ hlisted)
      rcases List.mem_pair.1 hz with rfl | rfl
      · exact hstored _ hx
      · exact hstored _ hy
    rw [rank_eq hc]
    exact List.pair_sublist_mergeSort byPlace_trans byPlace_total ((hiff x hx y hy).1 hxy) hpair

/-! ## The outcome -/

/-- Whether the clause at a place of a ranking is given up: it has more than two literals, is the
reason of nothing on the trail, and stands in the first half of the ranking or has an activity below
the limit. -/
def GivesUp (db : Database) (t : Trail) (count : Nat) (x : (Handle × Constraint) × Nat) : Prop :=
  2 < x.1.2.size ∧ (∀ m ∈ t, t.reasonOf m.var ≠ some x.1.1) ∧
    (x.2 < count / 2 ∨ x.1.2.activity < db.increment / count.toFloat)

instance (db : Database) (t : Trail) (count : Nat) (x : (Handle × Constraint) × Nat) :
    Decidable (db.GivesUp t count x) :=
  inferInstanceAs (Decidable (2 < x.1.2.size ∧
    (∀ m ∈ t.lits.toList, t.reasonOf m.var ≠ some x.1.1) ∧
      (x.2 < count / 2 ∨ x.1.2.activity < db.increment / count.toFloat)))

/-- What `reduce` makes of a database, going through a ranking of its learnt clauses: those that it
gives up are freed and reported once, in the order of the ranking; nothing else changes but the list
of learnt clauses, which has the order of the ranking now, and the counts. -/
structure Reduces (db : Database) (store : Store) (t : Trail)
    (ranked : List (Handle × Constraint)) (db' : Database) (s : Sweep) : Prop where
  trail : s.trail = t
  database : db' = { db with learnts := db'.learnts, counts := db'.counts }
  removed : s.removed.toList =
    (ranked.zipIdx.filter fun x => db.GivesUp t ranked.length x).map Prod.fst
  learnts : db'.learnts.toList =
    (ranked.zipIdx.filter fun x => ¬ db.GivesUp t ranked.length x).map fun x => x.1.1
  once : (s.removed.toList.map Prod.fst).Nodup
  freed : ∀ x ∈ s.removed.toList, s.store.get? x.1 = none
  left : ∀ a ∉ s.removed.toList.map Prod.fst, s.store.get? a = store.get? a
  given : ∀ a ∈ db.given.toList, s.store.get? a = store.get? a
  tallied : db'.Tallied s.store

/-- The sweep after the clauses `done` of a ranking. -/
structure Sweep.Reducing (db : Database) (n : Network) (count : Nat)
    (done : List ((Handle × Constraint) × Nat)) (s : Sweep) : Prop where
  trail : s.trail = n.trail
  removed : s.removed.toList = (done.filter fun x => db.GivesUp n.trail count x).map Prod.fst
  kept : s.kept.toList = (done.filter fun x => ¬ db.GivesUp n.trail count x).map fun x => x.1.1
  left : ∀ a ∉ s.removed.toList.map Prod.fst, s.store.get? a = n.store.get? a

/-- A step treats the next clause of the ranking as it should. -/
theorem Sweep.Reducing.giveUp {dead : Lit → Prop} {line : Lit → List Watcher} {count : Nat}
    {done : List ((Handle × Constraint) × Nat)} {x : (Handle × Constraint) × Nat}
    (hr : s.Reducing db n count done) (hs : (s.network n).Sane dead line)
    (hc : s.store.get? x.1.1 = some x.1.2) (ha : x.1.2.isAtMost = false)
    (hok : s.giveUp (decide (x.2 < count / 2) ||
      decide (x.1.2.activity < db.increment / count.toFloat)) x.1.1 x.1.2 = .ok s') :
    s'.Reducing db n count (done ++ [x]) := by
  -- what is tested on the trail of the sweep holds on the trail at the start
  have hgives : db.GivesUp n.trail count x ↔ 2 < x.1.2.size ∧
      (∀ m ∈ s.trail, s.trail.reasonOf m.var ≠ some x.1.1) ∧ (decide (x.2 < count / 2) ||
        decide (x.1.2.activity < db.increment / count.toFloat)) = true := by
    rw [GivesUp, hr.trail, Bool.or_eq_true, decide_eq_true_iff, decide_eq_true_iff]
  rcases giveUp_cases hs hc ha hok with ⟨hyes, hdrop, htrail⟩ | ⟨hno, rfl⟩
  · have hx := hgives.2 hyes
    obtain ⟨-, hkept, hremoved, -⟩ := frees_of_drop hs hc hdrop
    refine ⟨htrail.trans hr.trail, ?_, ?_, fun a hna => ?_⟩
    · simp [hremoved, hr.removed, hx]
    · simp [hkept, hr.kept, hx]
    · rw [hremoved, Array.toList_push, List.map_append, List.mem_append, not_or] at hna
      rw [(dropped_of_drop hdrop).1, if_neg (by simpa using hna.2), hr.left a hna.1]
  · have hx := mt hgives.1 hno
    refine ⟨hr.trail, ?_, ?_, hr.left⟩
    · simp [Sweep.keep, hr.removed, hx]
    · simp [Sweep.keep, hr.kept, hx]

/-- Giving up learnt clauses frees exactly those that `GivesUp` names, in the order of a stable
ranking. -/
theorem reduces_of_reduce {dead : Lit → Prop} (hs : n.Sane dead n.index.line)
    (hl : db.Listed n.store) (ht : db.Tallied n.store) (hcmp : db.Comparable n.store)
    (hok : db.reduce n.store n.trail = .ok (db', s)) :
    ∃ ranked, db.Ranking n.store ranked ∧ db.Reduces n.store n.trail ranked db' s := by
  have htallied := tallied_of_reduce hl ht hok
  obtain ⟨entries, hfst, hget, hfold, rfl⟩ := reduce_ranked hok
  have hrank := ranking_of_rank hcmp hfst hget
  have hmem : ∀ x ∈ (rank entries).zipIdx, x.1 ∈ rank entries := fun x hx =>
    List.fst_mem_of_mem_zipIdx hx
  have hlearnt : ∀ x ∈ rank entries, x.1 ∈ db.learnts.toList := fun x hx =>
    hrank.perm.subset (List.mem_map_of_mem hx)
  have hclause : ∀ x ∈ rank entries, x.2.isAtMost = false := fun x hx => by
    obtain ⟨k, hk, -⟩ := hl.learnts x.1 (hlearnt x hx) x.2 (hrank.stored x hx)
    exact isAtMost_of_serial? hk
  have hperm := hfst ▸ map_rank_perm entries
  -- the network stays sane in the middle of the sweep, so the test of the first literal is right
  let P : List ((Handle × Constraint) × Nat) → Sweep → Prop := fun rest s₁ =>
    Sweeping n dead False (fun _ => False) False (fun h _ => h ∈ db.learnts.toList) db.given.toList
      (rest.map fun x => x.1.1) s₁ ∧
    ∃ done, (rank entries).zipIdx = done ++ rest ∧ s₁.Reducing db n (rank entries).length done
  have hend : P [] s := by
    refine foldlM_ok P ?_ ⟨?_, [], rfl, rfl, rfl, rfl, fun _ _ => rfl⟩ hfold
    · rintro x rest s₁ s₂ ⟨hsw, done, heq, hred⟩ hstep
      have hx := hmem x (heq ▸ List.mem_append_right done List.mem_cons_self)
      have hc := hrank.stored _ hx
      obtain ⟨hsw₂, -⟩ := sweeping_of_giveUp hsw hc (hclause _ hx) (hlearnt _ hx) hstep
      exact ⟨hsw₂, done ++ [x], by rw [heq, List.append_assoc, List.singleton_append],
        hred.giveUp hsw.sane ((hsw.untouched x.1.1 (by simp)).trans hc) (hclause _ hx) hstep⟩
    · exact Sweeping.start (s := Sweep.start db n.store n.trail) (n := n) hs ⟨by simp, by simp⟩
        False.elim rfl ((hperm.append_left _).nodup_iff.2 hl.nodup)
        (fun a d hd => (hperm.append_left _).mem_iff.2 (hl.live a d hd)) (by simp [Sweep.start])
  obtain ⟨hsw, done, heq, hred⟩ := hend
  rw [List.append_nil] at heq
  subst heq
  -- what is freed is learnt, and it is freed once since the ranking names it once
  have hsub : (s.removed.toList.map Prod.fst).Sublist
      ((rank entries).zipIdx.map fun x => x.1.1) := by
    rw [hred.removed, List.map_map]
    exact List.filter_sublist.map _
  have hnd := List.nodup_append'.1 hl.nodup
  refine ⟨rank entries, hrank, hred.trail, rfl, hred.removed, hred.kept,
    (hperm.nodup_iff.2 hnd.2.1).sublist hsub, hsw.removed, hred.left, fun a ha => ?_, htallied⟩
  exact hred.left a fun hm => hnd.2.2 ha (hperm.subset (hsub.subset hm))

end Database

end CardSat
