import CardSat.Proofs.Database.Counts

set_option autoImplicit false

/-! # The lists are the inventory of the store

`Database.Represents`: the two lists name what is stored, each constraint once, and the counts and
serial numbers fit. This is the invariant that a database and a store have between any two
operations. Unlike `Database.Listed` it leaves no handle on a list that names nothing, and it counts
the constraints in use.

## How the proof goes

Storing a constraint puts it on one list. A sweep comes to one constraint after another, and all the
while the constraints that it does not look at, those that it has kept and those that are to come
are the ones in use (`Sweep.Accounted`). So a constraint that a sweep comes to is in use and is
counted (`Sweep.covers_of_tallied`), which is why no handle is freed twice and no count falls below
zero, and the lists fit the store again when the sweep is through (`Represents.of_swept`).

A truncation is two sweeps, one over the end of the given list from the back and one over the learnt
clauses. The second starts where the first has ended, so the invariant names the handles that the
first one has been through (`swept`).
-/

namespace CardSat

/-! ## The number of constraints in use -/

namespace Store

variable {s s' : Store} {h : Handle}

/-- A constraint that is stored adds one to the number of constraints in use. -/
theorem live_of_alloc {kind : Kind} {lits : Array Lit} (ha : s.alloc kind lits = .ok (h, s')) :
    s'.live = s.live + 1 := by
  simp only [alloc, bind_eq_ok, pure_eq_ok, Prod.mk.injEq] at ha
  obtain ⟨_, -, -, rfl⟩ := ha
  rfl

/-- A constraint that is freed takes one from it. -/
theorem live_of_free (hf : s.free h = .ok s') : s'.live = s.live - 1 := by
  simp only [free, bind_eq_ok, pure_eq_ok] at hf
  obtain ⟨_, -, rfl⟩ := hf
  rfl

/-- Two stores with the same constraints use the same handles. -/
theorem Same.exists_iff (hs : s.Same s') (h : Handle) :
    (∃ c, s'.get? h = some c) ↔ ∃ c, s.get? h = some c := by
  constructor
  · rintro ⟨c, hc⟩
    obtain ⟨c₀, hc₀, -⟩ := hs.back h c hc
    exact ⟨c₀, hc₀⟩
  · rintro ⟨c, hc⟩
    obtain ⟨c', hc', -⟩ := hs.forth h c hc
    exact ⟨c', hc'⟩

/-- The serial number of the clause under a handle. -/
def serial? (s : Store) (h : Handle) : Option Nat := (s.get? h).bind Constraint.serial?

end Store

/-- A constraint that is counted. -/
def Counts.Covers (n : Counts) (c : Constraint) : Prop :=
  1 ≤ (n.ofOrigin c.isLearnt).1 ∧ c.size ≤ (n.ofOrigin c.isLearnt).2

namespace Database

variable {db db' : Database} {store store' base : Store} {trail : Trail} {s s' : Sweep}
  {h : Handle} {c : Constraint} {apart swept rest : List Handle}

theorem live_of_scaleActivity {f : Float} (hs : scaleActivity store h f = .ok store') :
    store'.live = store.live := by
  simp only [scaleActivity, bind_eq_ok] at hs
  obtain ⟨c, -, hs⟩ := hs
  split at hs
  next => rw [← pure_eq_ok.1 hs, Store.put]
  next => rw [← pure_eq_ok.1 hs]

theorem live_of_bump (hb : db.bump store h = .ok (db', store')) : store'.live = store.live := by
  simp only [bump, bind_eq_ok] at hb
  obtain ⟨c, -, hb⟩ := hb
  split at hb
  next a k hk =>
      split at hb
      next =>
          simp only [bind_eq_ok, pure_eq_ok, Prod.mk.injEq] at hb
          obtain ⟨store₁, hfold, -, rfl⟩ := hb
          rw [← Array.foldlM_toList] at hfold
          exact foldlM_ok (fun _ s => s.live = store.live)
            (fun _ _ _ _ h₁ h₂ => (live_of_scaleActivity h₂).trans h₁) rfl hfold
      next => rw [← (Prod.mk.inj (pure_eq_ok.1 hb)).2, Store.put]
  next => rw [← (Prod.mk.inj (pure_eq_ok.1 hb)).2]

/-! ## Lists and store -/

/-- The lists name the constraints in use, each of them once; counts and serial numbers fit. -/
structure Represents (db : Database) (store : Store) : Prop where
  nodup : (db.given.toList ++ db.learnts.toList).Nodup
  live : ∀ h, (∃ c, store.get? h = some c) ↔ h ∈ db.given.toList ++ db.learnts.toList
  two_le : ∀ h c, store.get? h = some c → 2 ≤ c.size
  count : store.live = db.given.size + db.learnts.size
  tallied : db.Tallied store
  given : ∀ h ∈ db.given.toList, ∀ c, store.get? h = some c → c.isLearnt = false
  learnts : ∀ h ∈ db.learnts.toList, ∀ c, store.get? h = some c →
    ∃ k, c.serial? = some k ∧ k < db.nextSerial
  distinct : ∀ h ∈ db.learnts.toList, ∀ h' ∈ db.learnts.toList, ∀ c c',
    store.get? h = some c → store.get? h' = some c' → c.serial? = c'.serial? → h = h'

/-- The lists are those of the weaker invariant. -/
theorem Represents.listed (hr : db.Represents store) : db.Listed store where
  nodup := hr.nodup
  live h c hc := (hr.live h).1 ⟨c, hc⟩
  issued h hh := by
    obtain ⟨c, hc⟩ := (hr.live h).2 hh
    exact Store.lt_of_get? hc
  given := hr.given
  learnts := hr.learnts

/-- Nothing is stored and nothing is listed at the start. -/
theorem represents_empty (settings : DatabaseSettings) :
    (empty settings).Represents Store.empty where
  nodup := by simp [empty]
  live h := by simp [empty, Store.empty, Store.get?]
  two_le h c hc := by simp [Store.empty, Store.get?] at hc
  count := rfl
  tallied := ⟨rfl, rfl, rfl, rfl⟩
  given h hh := by simp [empty] at hh
  learnts h hh := by simp [empty] at hh
  distinct h hh := by simp [empty] at hh

/-- What is stored may be rearranged, and activities may change. -/
theorem Represents.same (hr : db.Represents store) (hd : db.SameLists db')
    (hcounts : db'.counts = db.counts) (hs : store.Same store')
    (hlive : store'.live = store.live) : db'.Represents store' := by
  have hl := hr.listed.same hd hs
  refine ⟨hl.nodup, fun h => ?_, fun h c hc => ?_, ?_,
    hr.tallied.congr hd.given hd.learnts hcounts hs.litCount_eq, hl.given, hl.learnts,
    fun h hh h' hh' c c' hc hc' hk => ?_⟩
  · rw [hs.exists_iff, hd.given, hd.learnts, hr.live h]
  · obtain ⟨c₀, hc₀, hsame⟩ := hs.back h c hc
    rw [hsame.size_eq]
    exact hr.two_le h c₀ hc₀
  · rw [hlive, hd.given, hd.learnts, hr.count]
  · obtain ⟨d, hd₀, hsame⟩ := hs.back h c hc
    obtain ⟨d', hd₀', hsame'⟩ := hs.back h' c' hc'
    rw [hsame.serial?_eq, hsame'.serial?_eq] at hk
    exact hr.distinct h (hd.learnts ▸ hh) h' (hd.learnts ▸ hh') d d' hd₀ hd₀' hk

/-- A new constraint takes one handle more into use. -/
theorem Added.exists_iff (ha : Added store store' h c) (a : Handle) :
    (∃ d, store'.get? a = some d) ↔ a = h ∨ ∃ d, store.get? a = some d := by
  rw [ha.get? a]
  split
  next he => simp [he]
  next he => simp [he]

/-- Every constraint has two literals when the new one has. -/
theorem Added.two_le_of (ha : Added store store' h c)
    (htwo : ∀ a d, store.get? a = some d → 2 ≤ d.size) {a : Handle} {d : Constraint}
    (hd : store'.get? a = some d) : 2 ≤ d.size := by
  rw [ha.get? a] at hd
  split at hd
  next => exact Option.some.inj hd ▸ ha.two_le
  next => exact htwo a d hd

/-- The lists fit the store after a given constraint is added. -/
theorem represents_of_addGiven {kind : Kind} {lits : Array Lit} (hk : ∀ a s, kind ≠ .learnt a s)
    (hr : db.Represents store) (ha : db.addGiven store kind lits = .ok (h, db', store')) :
    db'.Represents store' := by
  obtain ⟨hadded, hl, hgiven, hlearnts, -, -⟩ := added_of_addGiven hk hr.listed ha
  have hlive : store'.live = store.live + 1 := by
    simp only [addGiven, bind_eq_ok, pure_eq_ok, Prod.mk.injEq] at ha
    obtain ⟨⟨_, _⟩, halloc, -, -, rfl⟩ := ha
    exact Store.live_of_alloc halloc
  have hnew := hr.listed.not_mem_fresh hadded.fresh
  refine ⟨hl.nodup, fun a => ?_, fun _ _ => hadded.two_le_of hr.two_le, ?_,
    tallied_of_addGiven hk hr.listed hr.tallied ha, hl.given, hl.learnts,
    fun a ha' b hb c c' hc hc' hserial => ?_⟩
  · rw [hadded.exists_iff, hr.live a, hgiven, hlearnts]
    simp only [Array.toList_push, List.mem_append, List.mem_singleton]
    tauto
  · rw [hlive, hr.count, hgiven, hlearnts, Array.size_push]
    omega
  · -- the learnt clauses are stored as before
    rw [hlearnts] at ha' hb
    have hold : ∀ x ∈ db.learnts.toList, store'.get? x = store.get? x := fun x hx => by
      rw [hadded.get?, if_neg]
      rintro rfl
      exact hnew (List.mem_append_right _ hx)
    rw [hold a ha'] at hc
    rw [hold b hb] at hc'
    exact hr.distinct a ha' b hb c c' hc hc' hserial

/-- A learnt clause is the new one, which has the next serial number, or it was stored before. -/
theorem serial_of_learnt {store₁ : Store} {lits : Array Lit} {a : Handle}
    (hadded : Added store store₁ h ⟨.learnt 0.0 db.nextSerial, lits⟩) (hsame : store₁.Same store')
    (ha : a ∈ (db.learnts.push h).toList) (hc : store'.get? a = some c) :
    a = h ∧ c.serial? = some db.nextSerial ∨
      a ∈ db.learnts.toList ∧ ∃ c₀, store.get? a = some c₀ ∧ c.serial? = c₀.serial? := by
  obtain ⟨c₁, hc₁, hsame⟩ := hsame.back a c hc
  rw [hsame.serial?_eq]
  rw [hadded.get?] at hc₁
  split at hc₁
  next he =>
      obtain rfl := Option.some.inj hc₁
      exact Or.inl ⟨he, rfl⟩
  next hne =>
      rw [Array.toList_push, List.mem_append, List.mem_singleton] at ha
      exact Or.inr ⟨ha.resolve_right hne, c₁, hc₁, rfl⟩

/-- The next serial number has not been given yet. -/
theorem Represents.serial_ne (hr : db.Represents store) (hh : h ∈ db.learnts.toList)
    (hc : store.get? h = some c) : c.serial? ≠ some db.nextSerial := by
  intro hk
  obtain ⟨k, hk', hlt⟩ := hr.learnts h hh c hc
  rw [hk] at hk'
  exact Nat.lt_irrefl _ (Option.some.inj hk' ▸ hlt)

/-- The lists fit the store after a clause is learnt. -/
theorem represents_of_learn {lits : Array Lit} (hr : db.Represents store)
    (ha : db.learn store lits = .ok (h, db', store')) : db'.Represents store' := by
  obtain ⟨store₁, hadded, hrel, hl, hgiven, hlearnts, -, hnext⟩ := added_of_learn hr.listed ha
  have hlive : store'.live = store.live + 1 := by
    simp only [learn, bind_eq_ok, pure_eq_ok, Prod.mk.injEq] at ha
    obtain ⟨⟨_, _⟩, halloc, ⟨_, _⟩, hbump, -, -, rfl⟩ := ha
    exact (live_of_bump hbump).trans (Store.live_of_alloc halloc)
  refine ⟨hl.nodup, fun a => ?_, fun a c hc => ?_, ?_, tallied_of_learn hr.listed hr.tallied ha,
    hl.given, hl.learnts, fun a ha' b hb c c' hc hc' heq => ?_⟩
  · rw [hrel.same.exists_iff, hadded.exists_iff, hr.live a, hgiven, hlearnts]
    simp only [Array.toList_push, List.mem_append, List.mem_singleton]
    tauto
  · obtain ⟨c₁, hc₁, hsame⟩ := hrel.same.back a c hc
    rw [hsame.size_eq]
    exact hadded.two_le_of hr.two_le hc₁
  · rw [hlive, hr.count, hgiven, hlearnts, Array.size_push]
    omega
  · -- an older learnt clause has an older serial number
    rw [hlearnts] at ha' hb
    rcases serial_of_learnt hadded hrel.same ha' hc with ⟨rfl, hk⟩ | ⟨ha₀, c₀, hc₀, hk⟩
    · rcases serial_of_learnt hadded hrel.same hb hc' with ⟨rfl, -⟩ | ⟨hb₀, c₀', hc₀', hk'⟩
      · rfl
      · exact absurd (hk'.symm.trans (heq.symm.trans hk)) (hr.serial_ne hb₀ hc₀')
    · rcases serial_of_learnt hadded hrel.same hb hc' with ⟨rfl, hk'⟩ | ⟨hb₀, c₀', hc₀', hk'⟩
      · exact absurd (hk.symm.trans (heq.trans hk')) (hr.serial_ne ha₀ hc₀)
      · exact hr.distinct a ha₀ b hb₀ c₀ c₀' hc₀ hc₀' (hk.symm.trans (heq.trans hk'))

/-! ## In the middle of a sweep -/

namespace Sweep

/-- What a sweep does not look at, has kept, or will come to, is in use, and nothing else is. What
it keeps comes from the list `swept`, and is of the kind that it was at the start. -/
structure Accounted (base : Store) (apart swept rest : List Handle) (s : Sweep) : Prop where
  nodup : (apart ++ s.kept.toList ++ rest).Nodup
  live : ∀ a, (∃ c, s.store.get? a = some c) ↔ a ∈ apart ++ s.kept.toList ++ rest
  count : s.store.live = (apart ++ s.kept.toList ++ rest).length
  kinds : ∀ a c, s.store.get? a = some c → ∃ c₀, base.get? a = some c₀ ∧ c.kind = c₀.kind ∧
    (2 ≤ c₀.size → 2 ≤ c.size)
  source : ∀ a ∈ s.kept.toList ++ rest, a ∈ swept

namespace Accounted

/-- The constraint that a sweep comes to is in use. -/
theorem stored (ha : s.Accounted base apart swept (h :: rest)) : ∃ c, s.store.get? h = some c :=
  (ha.live h).2 (by simp)

/-- A constraint that is kept moves from those to come to those that are kept. -/
theorem append_push (s : Sweep) : apart ++ (s.kept.push h).toList ++ rest =
    apart ++ s.kept.toList ++ h :: rest := by
  simp

/-- A constraint that is kept moves from those to come to those that are kept. -/
theorem keep (ha : s.Accounted base apart swept (h :: rest)) :
    Accounted base apart swept rest { s with kept := s.kept.push h } :=
  ⟨append_push s ▸ ha.nodup, append_push s ▸ ha.live, append_push s ▸ ha.count, ha.kinds,
    fun a hmem => ha.source a (by simpa using hmem)⟩

/-- A constraint that is freed leaves the lists and the store together. -/
theorem drop (ha : s.Accounted base apart swept (h :: rest)) (hd : s.drop h c = .ok s') :
    s'.Accounted base apart swept rest := by
  have hperm : (apart ++ s.kept.toList ++ h :: rest).Perm
      (h :: (apart ++ s.kept.toList ++ rest)) := List.perm_middle
  obtain ⟨hnew, hnd⟩ := List.nodup_cons.1 (hperm.nodup_iff.1 ha.nodup)
  obtain ⟨hget, -, hkept⟩ := dropped_of_drop hd
  have hlive : s'.store.live = s.store.live - 1 := by
    simp only [Sweep.drop, bind_eq_ok, pure_eq_ok] at hd
    obtain ⟨_, -, store, hstore, rfl⟩ := hd
    exact Store.live_of_free hstore
  -- the handle that is freed is none of the others
  rw [← hkept] at hnd hnew
  refine ⟨hnd, fun a => ?_, ?_, fun a c ha' => ?_, fun a hmem => ?_⟩
  · have hin := ha.live a
    rw [hperm.mem_iff, List.mem_cons, ← hkept] at hin
    rw [hget]
    split
    next he => simp only [he, hnew, reduceCtorEq, exists_false]
    next hne => rw [hin, or_iff_right hne]
  · rw [hlive, ha.count, hperm.length_eq, hkept]
    rfl
  · rw [hget] at ha'
    split at ha'
    next => cases ha'
    next => exact ha.kinds a c ha'
  · rw [hkept] at hmem
    refine ha.source a ?_
    rcases List.mem_append.1 hmem with hm | hm
    · exact List.mem_append_left _ hm
    · exact List.mem_append_right _ (List.mem_cons_of_mem _ hm)

/-- A constraint is stored anew under the handle of the old one. -/
theorem put {c' : Constraint} {counts : Counts} (ha : s.Accounted base apart swept (h :: rest))
    (hc : s.store.get? h = some c) (hkind : c'.kind = c.kind) (htwo : 2 ≤ c.size → 2 ≤ c'.size) :
    Accounted base apart swept rest
      { s with store := s.store.put h c', counts, kept := s.kept.push h } := by
  have hget : ∀ a, (s.store.put h c').get? a = if a = h then some c' else s.store.get? a :=
    Store.get?_put hc
  refine ⟨append_push s ▸ ha.nodup, fun a => ?_, append_push s ▸ ha.count, fun a d hd => ?_,
    fun a hmem => ha.source a (by simpa using hmem)⟩
  · dsimp only
    rw [append_push, ← ha.live a, hget]
    split
    next he => simp [he, hc]
    next => rfl
  · dsimp only at hd
    rw [hget] at hd
    split at hd
    next he =>
        obtain rfl := Option.some.inj hd
        obtain ⟨c₀, hc₀, hk, htwo₀⟩ := ha.kinds h c hc
        exact ⟨c₀, he ▸ hc₀, hkind.trans hk, fun h₀ => htwo (htwo₀ h₀)⟩
    next => exact ha.kinds a d hd

/-- Whatever a sweep does with a constraint, it accounts for those in use. -/
theorem treat (ha : s.Accounted base apart swept (h :: rest)) (hs : Treats h s s') :
    s'.Accounted base apart swept rest := by
  cases hs with
  | keep => exact ha.keep
  | drop hc hd => exact ha.drop hd
  | strengthen hc hkind htwo => exact ha.put hc hkind htwo

end Accounted

/-- A constraint that a sweep comes to is counted, so that it can be counted out. -/
theorem covers_of_tallied {learnt : Bool} {same others : List Handle}
    (ht : s.Tallied learnt same others (h :: rest)) (hc : s.store.get? h = some c) :
    s.counts.Covers c := by
  have htally := ht.tally_rest hc
  rw [Counts.Covers, ht.origin h List.mem_cons_self c hc, htally]
  exact ⟨Nat.le_add_left _ _, Nat.le_add_left _ _⟩

/-- In the middle of a sweep over one of the two lists, at a point where the constraints `rest` are
to come and stored as they were at the start. -/
structure Underway (base : Store) (learnt : Bool) (same others swept rest : List Handle)
    (s : Sweep) : Prop where
  accounted : s.Accounted base (others ++ same) swept rest
  tallied : s.Tallied learnt same others rest
  untouched : ∀ a ∈ rest, s.store.get? a = base.get? a

namespace Underway

variable {learnt : Bool} {same others as : List Handle} {f : Sweep → Handle → Checked Sweep}

/-- The counts go along. -/
theorem treat (hu : s.Underway base learnt same others swept (h :: rest)) (hs : Treats h s s') :
    s'.Underway base learnt same others swept rest where
  accounted := hu.accounted.treat hs
  tallied := hu.tallied.treat hs
  untouched a ha :=
    (hs.get?_of_ne (hu.tallied.mem_rest.1 a (by simp [ha]))).trans
      (hu.untouched a (List.mem_cons_of_mem _ ha))

/-- What a sweep comes to is in use, stored as it was at the start, and counted. -/
theorem next (hu : s.Underway base learnt same others swept (h :: rest)) :
    ∃ c, s.store.get? h = some c ∧ base.get? h = some c ∧ s.counts.Covers c := by
  obtain ⟨c, hc⟩ := hu.accounted.stored
  exact ⟨c, hc, (hu.untouched h List.mem_cons_self).symm.trans hc, covers_of_tallied hu.tallied hc⟩

/-- A sweep over the first part of what is to come. It leaves the other list alone. -/
theorem run {before : List Handle} (hf : ∀ h s s', f s h = .ok s' → Treats h s s')
    (hu : s.Underway base learnt same others swept as) (hsplit : as = before ++ rest)
    (hok : before.foldlM f s = .ok s') :
    s'.Underway base learnt same others swept rest ∧
      ∀ a ∈ others, s'.store.get? a = s.store.get? a := by
  let P : List Handle → Sweep → Prop := fun left s₁ =>
    s₁.Underway base learnt same others swept (left ++ rest) ∧
      ∀ a ∈ others, s₁.store.get? a = s.store.get? a
  have hend : P [] s' := by
    refine foldlM_ok P ?_ ⟨hsplit ▸ hu, fun _ _ => rfl⟩ hok
    rintro h left s₁ s₂ ⟨hu₁, hothers⟩ hstep
    have htreats := hf h s₁ s₂ hstep
    refine ⟨hu₁.treat htreats, fun a ha => ?_⟩
    exact (htreats.get?_of_ne (hu₁.tallied.mem_rest.1 a (List.mem_append_left _ ha))).trans
      (hothers a ha)
  exact hend

/-- After one list it is the turn of the other one. -/
theorem turn (hu : s.Underway base learnt same others swept [])
    (hothers : ∀ a ∈ others, s.store.get? a = base.get? a)
    (horigin : ∀ a ∈ others, ∀ c, base.get? a = some c → c.isLearnt = !learnt) :
    Underway base (!learnt) [] (same ++ s.kept.toList) others others
      { s with kept := #[] } := by
  have hperm : (others ++ same ++ s.kept.toList ++ []).Perm
      (same ++ s.kept.toList ++ [] ++ [] ++ others) := by
    simp only [List.append_nil, List.append_assoc]
    rw [← List.append_assoc same]
    exact List.perm_append_comm
  refine ⟨⟨hperm.nodup_iff.1 hu.accounted.nodup, fun a => ?_, ?_, hu.accounted.kinds,
    fun a ha => by simpa using ha⟩, hu.tallied.turn fun a ha c hc => ?_, hothers⟩
  · exact (hu.accounted.live a).trans hperm.mem_iff
  · exact hu.accounted.count.trans hperm.length_eq
  · exact horigin a ha c ((hothers a ha).symm.trans hc)

end Underway

end Sweep

/-! ## The three sweeps -/

open Sweep (Underway)

/-- Before a sweep over the learnt clauses, which it may go through in any order. -/
theorem Represents.start {as : List Handle} (hr : db.Represents store)
    (hperm : as.Perm db.learnts.toList) :
    (Sweep.start db store trail).Underway store true [] db.given.toList db.learnts.toList as := by
  have hlists : (db.given.toList ++ [] ++ [] ++ as).Perm
      (db.given.toList ++ db.learnts.toList) := by
    simpa using hperm.append_left db.given.toList
  refine ⟨⟨hlists.nodup_iff.2 hr.nodup, fun a => ?_, ?_, fun a c hc => ⟨c, hc, rfl, id⟩,
    fun a ha => hperm.mem_iff.1 (by simpa [Sweep.start] using ha)⟩,
    hr.tallied.start hr.listed hperm, fun _ _ => rfl⟩
  · exact (hr.live a).trans hlists.mem_iff.symm
  · calc store.live = db.given.toList.length + db.learnts.toList.length := hr.count
      _ = (db.given.toList ++ db.learnts.toList).length := List.length_append.symm
      _ = _ := hlists.length_eq.symm

/-- Learnt clauses are looked up and ranked before the sweep, which comes to them as they are. -/
theorem underway_of_giveUp {entries : List (Handle × Constraint)}
    {before after : List ((Handle × Constraint) × Nat)}
    {p : (Handle × Constraint) × Nat → Bool} (hr : db.Represents store)
    (hlist : entries.map Prod.fst = db.learnts.toList)
    (hentries : ∀ x ∈ entries, store.get? x.1 = some x.2)
    (hsplit : (rank entries).zipIdx = before ++ after)
    (hfold : before.foldlM (fun s x => s.giveUp (p x) x.1.1 x.1.2)
      (Sweep.start db store trail) = .ok s) :
    s.Underway store true [] db.given.toList db.learnts.toList (after.map fun x => x.1.1) ∧
      ∀ x ∈ after, store.get? x.1.1 = some x.1.2 := by
  have hstored : ∀ x ∈ before ++ after, store.get? x.1.1 = some x.1.2 := fun x hx =>
    hentries x.1 ((rank_perm entries).mem_iff.1 (List.fst_mem_of_mem_zipIdx (hsplit ▸ hx)))
  let P : List ((Handle × Constraint) × Nat) → Sweep → Prop := fun left s₁ =>
    s₁.Underway store true [] db.given.toList db.learnts.toList
      ((left ++ after).map fun x => x.1.1) ∧ ∀ x ∈ left, x ∈ before
  have hend : P [] s := by
    refine foldlM_ok P ?_ ⟨hr.start ?_, fun _ => id⟩ hfold
    · rintro x left s₁ s₂ ⟨hu, hleft⟩ hstep
      have hc := (hu.untouched x.1.1 (by simp)).trans
        (hstored x (List.mem_append_left _ (hleft x List.mem_cons_self)))
      exact ⟨hu.treat (treats_of_giveUp hc hstep),
        fun y hy => hleft y (List.mem_cons_of_mem _ hy)⟩
    · rw [← hsplit, ← hlist]
      exact map_rank_perm entries
  exact ⟨hend.1, fun x hx => hstored x (List.mem_append_right _ hx)⟩

/-- The learnt clauses come first when satisfied constraints are removed. -/
theorem underway_of_satisfied {strengthen : Bool} {before after : List Handle}
    (hr : db.Represents store) (hsplit : db.learnts.toList = before ++ after)
    (hfold : before.foldlM (sweepSatisfied strengthen) (Sweep.start db store trail) = .ok s) :
    s.Underway store true [] db.given.toList db.learnts.toList after ∧
      ∀ a ∈ db.given.toList, s.store.get? a = store.get? a :=
  (hr.start (.refl _)).run (fun _ _ _ => treats_of_sweepSatisfied) hsplit hfold

/-- The second sweep of a removal, over the given constraints, starts from the store and the counts
that the first one has left. -/
theorem underway_of_satisfied_given {strengthen : Bool} {before after : List Handle} {s₁ : Sweep}
    (hr : db.Represents store)
    (hfold : db.learnts.toList.foldlM (sweepSatisfied strengthen) (Sweep.start db store trail) =
      .ok s₁) (hsplit : db.given.toList = before ++ after)
    (hfold₁ : before.foldlM (sweepSatisfied strengthen) { s₁ with kept := #[] } = .ok s) :
    s.Underway store false [] s₁.kept.toList db.given.toList after := by
  obtain ⟨hu, hgiven⟩ := underway_of_satisfied hr (List.append_nil _).symm hfold
  have hturn := hu.turn hgiven hr.given
  simp only [List.nil_append] at hturn
  exact (hturn.run (fun _ _ _ => treats_of_sweepSatisfied) hsplit hfold₁).1

/-- Looking up a constraint and freeing it. -/
theorem treats_of_fetch_drop (hok : (do s.drop h (← s.store.fetch h) : Checked Sweep) = .ok s') :
    Sweep.Treats h s s' ∧ s'.kept = s.kept := by
  simp only [bind_eq_ok, Store.fetch_eq_ok] at hok
  obtain ⟨c, hc, hok⟩ := hok
  exact ⟨.drop hc hok, (dropped_of_drop hok).2.2⟩

/-- A truncation drops the given constraints from a position on, the last one first. -/
theorem underway_of_drops {given : Nat} {before after : List Handle} (hr : db.Represents store)
    (hsplit : (db.given.toList.drop given).reverse = before ++ after)
    (hfold : before.foldlM (fun (s : Sweep) h => do s.drop h (← s.store.fetch h))
      (Sweep.start db store trail) = .ok s) :
    s.Underway store false (db.given.toList.take given) db.learnts.toList
      (db.given.toList.drop given) after ∧ s.kept = #[] ∧
      ∀ a ∈ db.learnts.toList, s.store.get? a = store.get? a := by
  have hall : (db.learnts.toList ++ db.given.toList.take given ++
      (db.given.toList.drop given).reverse).Perm (db.given.toList ++ db.learnts.toList) := by
    rw [List.append_assoc]
    -- the given constraints are gone through from the back
    refine (((List.reverse_perm _).append_left _).append_left _).trans ?_
    rw [List.take_append_drop]
    exact List.perm_append_comm
  have hstart : (Sweep.start db store trail).Underway store false (db.given.toList.take given)
      db.learnts.toList (db.given.toList.drop given) (db.given.toList.drop given).reverse := by
    have hnil : (Sweep.start db store trail).kept.toList = [] := rfl
    refine ⟨⟨?_, fun a => ?_, ?_, fun a c hc => ⟨c, hc, rfl, id⟩, fun a ha => ?_⟩,
      hr.tallied.start_given hr.listed _ given, fun _ _ => rfl⟩
    · rw [hnil, List.append_nil]
      exact hall.nodup_iff.2 hr.nodup
    · rw [hnil, List.append_nil]
      exact (hr.live a).trans hall.mem_iff.symm
    · rw [hnil, List.append_nil]
      calc store.live = db.given.toList.length + db.learnts.toList.length := hr.count
        _ = (db.given.toList ++ db.learnts.toList).length := List.length_append.symm
        _ = _ := hall.length_eq.symm
    · simpa [hnil] using ha
  obtain ⟨hu, hlearnts⟩ := hstart.run (fun _ _ _ hok => (treats_of_fetch_drop hok).1) hsplit hfold
  refine ⟨hu, foldlM_ok (fun _ s => s.kept = #[]) ?_ rfl hfold, hlearnts⟩
  exact fun _ _ _ _ hkept hok => (treats_of_fetch_drop hok).2.trans hkept

/-- Then it is the turn of the learnt clauses. -/
theorem underway_after_drops {given : Nat} (hr : db.Represents store)
    (hfold : (db.given.toList.drop given).reverse.foldlM
      (fun (s : Sweep) h => do s.drop h (← s.store.fetch h)) (Sweep.start db store trail) =
        .ok s) :
    s.Underway store true [] (db.given.toList.take given) db.learnts.toList db.learnts.toList ∧
      s.kept = #[] := by
  obtain ⟨hu, hkept, hlearnts⟩ := underway_of_drops hr (List.append_nil _).symm hfold
  have hturn := hu.turn hlearnts fun a ha c hc => hr.listed.isLearnt ha hc
  have heq : { s with kept := #[] } = s := by
    rw [show (#[] : Array Handle) = s.kept from hkept.symm]
  rw [heq, hkept, List.append_nil] at hturn
  exact ⟨hturn, hkept⟩

/-! ## After a sweep -/

/-- The lists fit the store again when a sweep is through. -/
theorem Represents.of_swept (hr : db.Represents store)
    (ha : s.Accounted store apart swept [])
    (hlists : (apart ++ s.kept.toList).Perm (db'.given.toList ++ db'.learnts.toList))
    (hgiven : ∀ h ∈ db'.given.toList, h ∈ db.given.toList)
    (hlearnts : ∀ h ∈ db'.learnts.toList, h ∈ db.learnts.toList) (ht : db'.Tallied s.store)
    (hserial : ∀ h ∈ db'.learnts.toList, ∀ c, store.get? h = some c →
      ∀ k, c.serial? = some k → k < db.nextSerial → k < db'.nextSerial) :
    db'.Represents s.store := by
  have hkind : ∀ h c, s.store.get? h = some c → ∃ c₀, store.get? h = some c₀ ∧
      c.isLearnt = c₀.isLearnt ∧ c.serial? = c₀.serial? := by
    intro h c hc
    obtain ⟨c₀, hc₀, hk, -⟩ := ha.kinds h c hc
    exact ⟨c₀, hc₀, by rw [Constraint.isLearnt, hk]; rfl, by rw [Constraint.serial?, hk]; rfl⟩
  -- what is left was there before, with the same kind: each field is that of the lists before
  refine ⟨?_, fun h => ?_, fun h c hc => ?_, ?_, ht, fun h hh c hc => ?_, fun h hh c hc => ?_,
    fun h hh h' hh' c c' hc hc' hk => ?_⟩
  · exact hlists.nodup_iff.1 (by simpa using ha.nodup)
  · rw [ha.live h, List.append_nil]
    exact hlists.mem_iff
  · obtain ⟨c₀, hc₀, -, htwo⟩ := ha.kinds h c hc
    exact htwo (hr.two_le h c₀ hc₀)
  · calc s.store.live = (apart ++ s.kept.toList).length := by simpa using ha.count
      _ = (db'.given.toList ++ db'.learnts.toList).length := hlists.length_eq
      _ = db'.given.size + db'.learnts.size := List.length_append
  · obtain ⟨c₀, hc₀, hl, -⟩ := hkind h c hc
    exact hl.trans (hr.given h (hgiven h hh) c₀ hc₀)
  · obtain ⟨c₀, hc₀, -, hs⟩ := hkind h c hc
    obtain ⟨k, hk, hlt⟩ := hr.learnts h (hlearnts h hh) c₀ hc₀
    exact ⟨k, hs.trans hk, hserial h hh c₀ hc₀ k hk hlt⟩
  · obtain ⟨c₀, hc₀, -, hs⟩ := hkind h c hc
    obtain ⟨c₁, hc₁, -, hs'⟩ := hkind h' c' hc'
    exact hr.distinct h (hlearnts h hh) h' (hlearnts h' hh') c₀ c₁ hc₀ hc₁
      (hs.symm.trans (hk.trans hs'))

/-- The lists fit the store after learnt clauses are given up. -/
theorem represents_of_reduce (hr : db.Represents store)
    (hok : db.reduce store trail = .ok (db', s)) : db'.Represents s.store := by
  have ht := tallied_of_reduce hr.listed hr.tallied hok
  obtain ⟨entries, hlist, hentries, hfold, rfl⟩ := reduce_ranked hok
  obtain ⟨hu, -⟩ := underway_of_giveUp hr hlist hentries (List.append_nil _).symm hfold
  refine hr.of_swept hu.accounted ?_ (fun _ => id) (fun h hh => ?_) ht fun _ _ _ _ _ _ => id
  · simp
  · exact hu.accounted.source h (by simpa using hh)

/-- The lists fit the store after satisfied constraints are removed. -/
theorem represents_of_removeSatisfied {givenToo strengthen : Bool} (hr : db.Represents store)
    (hok : db.removeSatisfied store trail givenToo strengthen = .ok (db', s)) :
    db'.Represents s.store := by
  have ht := tallied_of_removeSatisfied hr.listed hr.tallied hok
  simp only [removeSatisfied, bind_eq_ok, require_eq_ok] at hok
  obtain ⟨_, -, s₁, hfold, hok⟩ := hok
  rw [← Array.foldlM_toList] at hfold
  obtain ⟨hu, -⟩ := underway_of_satisfied hr (List.append_nil _).symm hfold
  have hlearnts : ∀ h ∈ s₁.kept.toList, h ∈ db.learnts.toList := fun h hh =>
    hu.accounted.source h (by simpa using hh)
  split at hok
  next =>
      simp only [bind_eq_ok, pure_eq_ok, Prod.mk.injEq] at hok
      obtain ⟨s₂, hfold₂, rfl, rfl⟩ := hok
      rw [← Array.foldlM_toList] at hfold₂
      have hu₂ := underway_of_satisfied_given hr hfold (List.append_nil _).symm hfold₂
      refine hr.of_swept hu₂.accounted ?_ (fun h hh => ?_) hlearnts ht fun _ _ _ _ _ _ => id
      · rw [List.append_nil]
        exact List.perm_append_comm
      · exact hu₂.accounted.source h (by simpa using hh)
  next =>
      simp only [pure_eq_ok, Prod.mk.injEq] at hok
      obtain ⟨rfl, rfl⟩ := hok
      refine hr.of_swept hu.accounted ?_ (fun _ => id) hlearnts ht fun _ _ _ _ _ _ => id
      simp

/-! ## Going back -/

/-- What going back to a snapshot leaves. -/
structure Truncates (db : Database) (store : Store) (given serial units : Nat) (db' : Database)
    (store' : Store) : Prop where
  given : db'.given = db.given.take given
  learnts : db'.learnts.toList =
    db.learnts.toList.filter fun h => (store.serial? h).any (decide <| · < serial)
  units : db'.units = db.units.take units
  nextSerial : db'.nextSerial = min db.nextSerial serial
  left : ∀ h ∈ db'.given.toList ++ db'.learnts.toList, store'.get? h = store.get? h

/-- A cut keeps a clause whose serial number is below the limit, and frees the others. -/
theorem kept_of_cut {serial k : Nat} (hc : s.store.get? h = some c) (hk : c.serial? = some k)
    (hok : s.cut serial h = .ok s') :
    s'.kept.toList = (if k < serial then s.kept.toList ++ [h] else s.kept.toList) ∧
      ∀ a d, s'.store.get? a = some d → s.store.get? a = some d := by
  simp only [Sweep.cut, bind_eq_ok, Store.fetch_eq_ok] at hok
  obtain ⟨c₀, hc₀, hok⟩ := hok
  obtain rfl := Option.some.inj (hc.symm.trans hc₀)
  simp only [hk] at hok
  split at hok
  next hlt =>
      obtain rfl := pure_eq_ok.1 hok
      rw [if_pos hlt]
      exact ⟨by simp [Sweep.keep], fun _ _ => id⟩
  next hge =>
      obtain ⟨hget, -, hkept⟩ := dropped_of_drop hok
      rw [if_neg hge]
      refine ⟨by rw [hkept], fun a d hd => ?_⟩
      rw [hget] at hd
      split at hd
      next => cases hd
      next => exact hd

/-- Nothing that a list of drops leaves is changed. -/
theorem get?_of_drops {as : List Handle}
    (hok : as.foldlM (fun (s : Sweep) h => do s.drop h (← s.store.fetch h)) s = .ok s') :
    ∀ a d, s'.store.get? a = some d → s.store.get? a = some d := by
  refine foldlM_ok (fun _ s₁ => ∀ a d, s₁.store.get? a = some d → s.store.get? a = some d) ?_
    (fun _ _ => id) hok
  intro h left s₁ s₂ hleft hstep a d hd
  simp only [bind_eq_ok] at hstep
  obtain ⟨c, -, hstep⟩ := hstep
  rw [(dropped_of_drop hstep).1] at hd
  split at hd
  next => cases hd
  next => exact hleft a d hd

/-- The clauses that are kept are those with a low serial number among those that were cut. -/
theorem kept_of_cuts {serial : Nat} (hr : db.Represents store)
    (hu : s.Underway store true [] apart db.learnts.toList db.learnts.toList)
    (hnone : s.kept = #[]) (hfold : db.learnts.toList.foldlM (Sweep.cut serial) s = .ok s') :
    s'.kept.toList =
        (db.learnts.toList.filter fun h => (store.serial? h).any (decide <| · < serial)) ∧
      ∀ a d, s'.store.get? a = some d → s.store.get? a = some d := by
  let P : List Handle → Sweep → Prop := fun left s₁ =>
    s₁.Underway store true [] apart db.learnts.toList left ∧
      (s₁.kept.toList ++ left.filter fun h => (store.serial? h).any (decide <| · < serial)) =
        (db.learnts.toList.filter fun h => (store.serial? h).any (decide <| · < serial)) ∧
      (∀ h ∈ left, h ∈ db.learnts.toList) ∧
      ∀ a d, s₁.store.get? a = some d → s.store.get? a = some d
  have hend : P [] s' := by
    refine foldlM_ok P ?_ ⟨hu, by rw [hnone]; rfl, fun _ => id, fun _ _ => id⟩ hfold
    rintro h left s₁ s₂ ⟨hs, hkept, hleft, hsame⟩ hstep
    obtain ⟨c, hc, hc₀, -⟩ := hs.next
    obtain ⟨k, hk, -⟩ := hr.learnts h (hleft h List.mem_cons_self) c hc₀
    obtain ⟨hkept', hsame'⟩ := kept_of_cut hc hk hstep
    have hserial : store.serial? h = some k := by rw [Store.serial?, hc₀, Option.bind_some, hk]
    refine ⟨hs.treat (treats_of_cut hstep), ?_, fun a ha => hleft a (List.mem_cons_of_mem _ ha),
      fun a d hd => hsame a d (hsame' a d hd)⟩
    rw [← hkept, hkept', List.filter_cons, hserial]
    by_cases hlt : k < serial
    · simp [hlt]
    · simp [hlt]
  obtain ⟨-, hkept, -, hsame⟩ := hend
  rw [List.filter_nil, List.append_nil] at hkept
  exact ⟨hkept, hsame⟩

theorem truncates_of_truncate {given serial units : Nat} (hr : db.Represents store)
    (hok : db.truncate store trail given serial units = .ok (db', s)) :
    db'.Represents s.store ∧ db.Truncates store given serial units db' s.store := by
  have ht := tallied_of_truncate hr.listed hr.tallied hok
  simp only [truncate, bind_eq_ok, pure_eq_ok, Prod.mk.injEq] at hok
  obtain ⟨s₁, hfold, s₂, hfold₁, rfl, rfl⟩ := hok
  rw [← Array.foldlM_toList] at hfold₁
  obtain ⟨hu₁, hnone⟩ := underway_after_drops hr hfold
  obtain ⟨hu, -⟩ := hu₁.run (fun _ _ _ => treats_of_cut) (List.append_nil _).symm hfold₁
  obtain ⟨hkept, hsame⟩ := kept_of_cuts hr hu₁ hnone hfold₁
  have hrep : Represents { db with
      given := db.given.take given
      learnts := s₂.kept
      counts := s₂.counts
      nextSerial := min db.nextSerial serial
      units := db.units.take units } s₂.store := by
    refine hr.of_swept hu.accounted ?_ (fun h hh => ?_) (fun h hh => ?_) ht
      fun h hh c hc k hk hlt => ?_
    · simp
    · exact List.mem_of_mem_take (by simpa using hh)
    · exact hu.accounted.source h (by simpa using hh)
    · have hmem : h ∈ s₂.kept.toList := hh
      rw [hkept, List.mem_filter, Store.serial?, hc, Option.bind_some, hk] at hmem
      exact Nat.lt_min.2 ⟨hlt, by simpa using hmem.2⟩
  refine ⟨hrep, rfl, hkept, rfl, rfl, fun h hh => ?_⟩
  obtain ⟨c, hc⟩ := (hrep.live h).2 hh
  exact hc.trans (get?_of_drops hfold h c (hsame h c hc)).symm

end Database

end CardSat
