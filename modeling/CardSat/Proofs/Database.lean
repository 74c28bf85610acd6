import CardSat.Proofs.Constraint.Arrange
import CardSat.Proofs.Database.Sweep
import CardSat.Proofs.Network.Storing

set_option autoImplicit false

/-! # The lists of the database

The database keeps the handles of the given constraints on one list and those of the learnt clauses
on another. `Database.Listed` says what the lists have to do with the store: every stored constraint
is on exactly one of them, and a learnt clause has a serial number below the next one.

A handle on a list was given out at some time, but what it names may have been freed since. So the
invariant also holds in the middle of a sweep, which frees constraints before it puts the list in
order.

## How it is used

Activities are no part of it. A bump changes the activity of one clause, or scales all of them, and
leaves the lists alone (`Database.SameLists`) and each constraint what it is up to its activity
(`Store.Relabels`). The two operations that add a constraint put a new handle at the end of one list
(`Database.Added`); the new handle is on neither list before, since it was not given out.

What an operation that removes constraints ends with is a `Database.Removal`: the invariants of the
network and of the lists survive, and the operation tells what may be gone.
-/

namespace CardSat

namespace Database

variable {db db' : Database} {store store' : Store} {h : Handle} {c : Constraint}

/-! ## The lists -/

/-- The lists of the database name every stored constraint once. -/
structure Listed (db : Database) (store : Store) : Prop where
  nodup : (db.given.toList ++ db.learnts.toList).Nodup
  live : ∀ h c, store.get? h = some c → h ∈ db.given.toList ++ db.learnts.toList
  issued : ∀ h ∈ db.given.toList ++ db.learnts.toList, h.index < store.slots.size
  given : ∀ h ∈ db.given.toList, ∀ c, store.get? h = some c → c.isLearnt = false
  learnts : ∀ h ∈ db.learnts.toList, ∀ c, store.get? h = some c →
    ∃ k, c.serial? = some k ∧ k < db.nextSerial

/-- The lists are the same. -/
structure SameLists (db db' : Database) : Prop where
  given : db'.given = db.given
  learnts : db'.learnts = db.learnts
  units : db'.units = db.units
  nextSerial : db'.nextSerial = db.nextSerial

theorem SameLists.refl (db : Database) : db.SameLists db := ⟨rfl, rfl, rfl, rfl⟩

theorem SameLists.trans {db'' : Database} (a : db.SameLists db') (b : db'.SameLists db'') :
    db.SameLists db'' :=
  ⟨b.given.trans a.given, b.learnts.trans a.learnts, b.units.trans a.units,
    b.nextSerial.trans a.nextSerial⟩

/-- The lists fit any store with the same constraints, and any database with the same lists. -/
theorem Listed.same (hl : db.Listed store) (hd : db.SameLists db') (hs : store.Same store') :
    db'.Listed store' where
  nodup := by rw [hd.given, hd.learnts]; exact hl.nodup
  live a c hc := by
    obtain ⟨c₀, hc₀, -⟩ := hs.back a c hc
    rw [hd.given, hd.learnts]
    exact hl.live a c₀ hc₀
  issued a ha := by
    rw [hd.given, hd.learnts] at ha
    exact hs.size ▸ hl.issued a ha
  given a ha c hc := by
    obtain ⟨c₀, hc₀, hsame⟩ := hs.back a c hc
    rw [hsame.isLearnt_eq]
    exact hl.given a (hd.given ▸ ha) c₀ hc₀
  learnts a ha c hc := by
    obtain ⟨c₀, hc₀, hsame⟩ := hs.back a c hc
    rw [hsame.serial?_eq, hd.nextSerial]
    exact hl.learnts a (hd.learnts ▸ ha) c₀ hc₀

/-- Only a clause has a serial number. -/
theorem isAtMost_of_serial? {k : Nat} (hk : c.serial? = some k) : c.isAtMost = false := by
  unfold Constraint.serial? at hk
  unfold Constraint.isAtMost
  split at hk
  next heq => rw [heq]
  next => cases hk

/-! ## Activities -/

/-- Scaling the activity of a clause changes nothing but its activity. -/
theorem relabels_of_scaleActivity {f : Float} (hs : scaleActivity store h f = .ok store') :
    store.Relabels store' := by
  simp only [scaleActivity, bind_eq_ok, Store.fetch_eq_ok] at hs
  obtain ⟨c, hc, hs⟩ := hs
  split at hs
  next a s hk =>
      obtain rfl := pure_eq_ok.1 hs
      exact .put hc (by simp [hk, Kind.plain]) rfl
  next =>
      obtain rfl := pure_eq_ok.1 hs
      exact .refl store

/-- A bump changes activities only, also when it scales all of them down. -/
theorem relabels_of_bump (hb : db.bump store h = .ok (db', store')) :
    db.SameLists db' ∧ store.Relabels store' := by
  simp only [bump, bind_eq_ok, Store.fetch_eq_ok] at hb
  obtain ⟨c, hc, hb⟩ := hb
  split at hb
  next a s hk =>
      have hput : store.Relabels (store.put h { c with kind := .learnt (a + db.increment) s }) :=
        .put hc (by simp [hk, Kind.plain]) rfl
      split at hb
      next =>
          simp only [bind_eq_ok, pure_eq_ok, Prod.mk.injEq] at hb
          obtain ⟨store₁, hfold, rfl, rfl⟩ := hb
          refine ⟨⟨rfl, rfl, rfl, rfl⟩, ?_⟩
          rw [← Array.foldlM_toList] at hfold
          -- rescaling changes activities only
          exact foldlM_ok (fun _ s => store.Relabels s)
            (fun _ _ _ _ h₁ h₂ => h₁.trans (relabels_of_scaleActivity h₂)) hput hfold
      next =>
          simp only [pure_eq_ok, Prod.mk.injEq] at hb
          obtain ⟨rfl, rfl⟩ := hb
          exact ⟨.refl db, hput⟩
  next =>
      simp only [pure_eq_ok, Prod.mk.injEq] at hb
      obtain ⟨rfl, rfl⟩ := hb
      exact ⟨.refl db, .refl store⟩

/-! ## Adding -/

/-- What storing a constraint does to the store. -/
structure Added (store store' : Store) (h : Handle) (c : Constraint) : Prop where
  two_le : 2 ≤ c.size
  fresh : h.index = store.slots.size
  size : store'.slots.size = store.slots.size + 1
  get? : ∀ a, store'.get? a = if a = h then some c else store.get? a

/-- A handle that was not given out yet is on no list. -/
theorem Listed.not_mem_fresh (hl : db.Listed store) (hf : h.index = store.slots.size) :
    h ∉ db.given.toList ++ db.learnts.toList := by
  intro hm
  have := hl.issued h hm
  omega

/-- Adding a given constraint stores it under a new handle, which comes last on its list. -/
theorem added_of_addGiven {kind : Kind} {lits : Array Lit} (hk : ∀ a s, kind ≠ .learnt a s)
    (hl : db.Listed store) (ha : db.addGiven store kind lits = .ok (h, db', store')) :
    Added store store' h ⟨kind, lits⟩ ∧ db'.Listed store' ∧ db'.given = db.given.push h ∧
      db'.learnts = db.learnts ∧ db'.units = db.units ∧ db'.nextSerial = db.nextSerial := by
  simp only [addGiven, bind_eq_ok, pure_eq_ok, Prod.mk.injEq] at ha
  obtain ⟨⟨h₁, store₁⟩, halloc, rfl, rfl, rfl⟩ := ha
  obtain ⟨h2, hfresh, -, hsize, hget⟩ := Store.alloc_eq_ok halloc
  have hnew := hl.not_mem_fresh hfresh
  -- what is added with a kind of its own is not learnt, whatever its literals are
  have hlearnt : (⟨kind, lits⟩ : Constraint).isLearnt = false := by
    unfold Constraint.isLearnt
    split
    next a s hk' => exact absurd hk' (hk a s)
    next => rfl
  refine ⟨⟨h2, hfresh, hsize, hget⟩, ⟨?_, fun a c hc => ?_, fun a hm => ?_, fun a hm c hc => ?_,
    fun a hm c hc => ?_⟩, rfl, rfl, rfl, rfl⟩
  · have := hl.nodup
    simp only [Array.toList_push]
    -- the new handle stands in the middle of the two lists
    rw [List.append_assoc, List.singleton_append, List.nodup_middle, List.nodup_cons]
    exact ⟨hnew, hl.nodup⟩
  · rw [hget] at hc
    simp only [Array.toList_push, List.mem_append, List.mem_singleton]
    split at hc
    next he => exact Or.inl (Or.inr he)
    next =>
        rcases List.mem_append.1 (hl.live a c hc) with hm | hm
        · exact Or.inl (Or.inl hm)
        · exact Or.inr hm
  · rw [hsize]
    simp only [Array.toList_push, List.mem_append, List.mem_singleton] at hm
    rcases hm with (hm | rfl) | hm
    · exact Nat.lt_succ_of_lt (hl.issued a (List.mem_append_left _ hm))
    · rw [hfresh]
      exact Nat.lt_succ_self _
    · exact Nat.lt_succ_of_lt (hl.issued a (List.mem_append_right _ hm))
  · rw [hget] at hc
    split at hc
    next => exact Option.some.inj hc ▸ hlearnt
    next hne =>
        simp only [Array.toList_push, List.mem_append, List.mem_singleton] at hm
        exact hl.given a (hm.resolve_right hne) c hc
  · rw [hget, if_neg] at hc
    · exact hl.learnts a hm c hc
    · rintro rfl
      exact hnew (List.mem_append_right _ hm)

/-- Storing a learnt clause. -/
theorem added_of_learn {lits : Array Lit} (hl : db.Listed store)
    (ha : db.learn store lits = .ok (h, db', store')) :
    ∃ store₁, Added store store₁ h ⟨.learnt 0.0 db.nextSerial, lits⟩ ∧ store₁.Relabels store' ∧
      db'.Listed store' ∧ db'.given = db.given ∧ db'.learnts = db.learnts.push h ∧
      db'.units = db.units ∧ db'.nextSerial = db.nextSerial + 1 := by
  simp only [learn, bind_eq_ok, pure_eq_ok, Prod.mk.injEq] at ha
  obtain ⟨⟨h₁, store₁⟩, halloc, ⟨db₁, store₂⟩, hbump, rfl, rfl, rfl⟩ := ha
  obtain ⟨h2, hfresh, -, hsize, hget⟩ := Store.alloc_eq_ok halloc
  -- the clause is bumped as soon as it is stored: the lists are compared with the store in between
  obtain ⟨hsame, hrel⟩ := relabels_of_bump hbump
  have hnew := hl.not_mem_fresh hfresh
  refine ⟨store₁, ⟨h2, hfresh, hsize, hget⟩, hrel, Listed.same ?_ hsame hrel.same, hsame.given,
    hsame.learnts, hsame.units, hsame.nextSerial⟩
  refine ⟨?_, fun a c hc => ?_, fun a hm => ?_, fun a hm c hc => ?_, fun a hm c hc => ?_⟩
  · simp only [Array.toList_push]
    rw [← List.append_assoc, List.nodup_append]
    refine ⟨hl.nodup, by simp, fun a ha b hb => ?_⟩
    rw [List.mem_singleton.1 hb]
    rintro rfl
    exact hnew ha
  · rw [hget] at hc
    simp only [Array.toList_push, List.mem_append, List.mem_singleton]
    split at hc
    next he => exact Or.inr (Or.inr he)
    next =>
        rcases List.mem_append.1 (hl.live a c hc) with hm | hm
        · exact Or.inl hm
        · exact Or.inr (Or.inl hm)
  · rw [hsize]
    simp only [Array.toList_push, List.mem_append, List.mem_singleton] at hm
    rcases hm with hm | hm | rfl
    · exact Nat.lt_succ_of_lt (hl.issued a (List.mem_append_left _ hm))
    · exact Nat.lt_succ_of_lt (hl.issued a (List.mem_append_right _ hm))
    · rw [hfresh]
      exact Nat.lt_succ_self _
  · rw [hget, if_neg] at hc
    · exact hl.given a hm c hc
    · rintro rfl
      exact hnew (List.mem_append_left _ hm)
  · rw [hget] at hc
    split at hc
    next =>
        obtain rfl := Option.some.inj hc
        exact ⟨db.nextSerial, rfl, Nat.lt_succ_self _⟩
    next hne =>
        simp only [Array.toList_push, List.mem_append, List.mem_singleton] at hm
        obtain ⟨k, hk, hlt⟩ := hl.learnts a (hm.resolve_right hne) c hc
        exact ⟨k, hk, Nat.lt_succ_of_lt hlt⟩

end Database

end CardSat
