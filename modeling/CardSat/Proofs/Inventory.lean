import CardSat.Proofs.Database.Inventory
import CardSat.Proofs.Database.Thinning

set_option autoImplicit false

/-! # The database never loses a constraint

Whatever is stored, bumped, given up, removed, strengthened and taken back, in any order and under
any assignments (`Database.Built`), the lists of the database name exactly what is stored. Whenever
an operation comes to a constraint to free it or to strengthen it (`Database.Comes`), that
constraint is stored and counted, so nothing is freed twice and no count falls below zero. Going
back leaves what is older than the snapshot (`represents_of_built`).

The operations are taken alone here, without the engine that calls them. The trail is an argument of
three of them, and it may be any trail, so what is shown holds for every way in which the engine may
use the database, and for ways in which it does not.

The places to which an operation comes are not visible in its result. `Database.Comes` therefore
names the states in the middle of each sweep, following the definitions, with the handle that is
treated next.
-/

namespace CardSat

namespace Database

/-- The databases that operations build, each with its store. Between two operations the stored
constraints may be rearranged. -/
inductive Built : Database → Store → Prop
  | empty (settings : DatabaseSettings) : Built (empty settings) Store.empty
  | addClause {db db' : Database} {store store' : Store} {lits : Array Lit} {h : Handle}
      (hb : Built db store) (hok : db.addClause store lits = .ok (h, db', store')) :
      Built db' store'
  | addAtMost {db db' : Database} {store store' : Store} {lits : Array Lit} {bound : Nat}
      {h : Handle} (hb : Built db store)
      (hok : db.addAtMost store lits bound = .ok (h, db', store')) : Built db' store'
  | learn {db db' : Database} {store store' : Store} {lits : Array Lit} {h : Handle}
      (hb : Built db store) (hok : db.learn store lits = .ok (h, db', store')) : Built db' store'
  | addUnit {db : Database} {store : Store} (hb : Built db store) (l : Lit) :
      Built (db.addUnit l) store
  | bump {db db' : Database} {store store' : Store} {h : Handle} (hb : Built db store)
      (hok : db.bump store h = .ok (db', store')) : Built db' store'
  | decay {db : Database} {store : Store} (hb : Built db store) : Built db.decay store
  | reduce {db db' : Database} {store : Store} {trail : Trail} {s : Sweep} (hb : Built db store)
      (hok : db.reduce store trail = .ok (db', s)) : Built db' s.store
  | removeSatisfied {db db' : Database} {store : Store} {trail : Trail} {s : Sweep}
      {givenToo strengthen : Bool} (hb : Built db store)
      (hok : db.removeSatisfied store trail givenToo strengthen = .ok (db', s)) : Built db' s.store
  | truncate {db db' : Database} {store : Store} {trail : Trail} {s : Sweep}
      {given serial units : Nat} (hb : Built db store)
      (hok : db.truncate store trail given serial units = .ok (db', s)) : Built db' s.store
  | rearrange {db : Database} {store store' : Store} (hb : Built db store)
      (hs : store.Same store') (hlive : store'.live = store.live) : Built db store'

/-- An operation on the database comes to a constraint with what it has done so far. The last index
is the constraint, if it was looked up beforehand. -/
inductive Comes (db : Database) (store : Store) (trail : Trail) :
    Sweep → Handle → Option Constraint → Prop
  | reduce {entries : List (Handle × Constraint)}
      {before after : List ((Handle × Constraint) × Nat)} {x : (Handle × Constraint) × Nat}
      {s : Sweep}
      (hfetch : db.learnts.toList.mapM (fun h => return (h, ← store.fetch h)) = .ok entries)
      (hsplit : (rank entries).zipIdx = before ++ x :: after)
      (hfold : before.foldlM (fun s x => s.giveUp (decide (x.2 < (rank entries).length / 2) ||
        decide (x.1.2.activity < db.increment / (rank entries).length.toFloat)) x.1.1 x.1.2)
          (Sweep.start db store trail) = .ok s) :
      Comes db store trail s x.1.1 (some x.1.2)
  | satisfied {before after : List Handle} {h : Handle} {s : Sweep} {strengthen : Bool}
      (hsplit : db.learnts.toList = before ++ h :: after)
      (hfold : before.foldlM (sweepSatisfied strengthen) (Sweep.start db store trail) = .ok s) :
      Comes db store trail s h none
  | satisfied_given {before after : List Handle} {h : Handle} {s₁ s : Sweep} {strengthen : Bool}
      (hfold : db.learnts.toList.foldlM (sweepSatisfied strengthen) (Sweep.start db store trail) =
        .ok s₁) (hsplit : db.given.toList = before ++ h :: after)
      (hfold₁ : before.foldlM (sweepSatisfied strengthen) { s₁ with kept := #[] } = .ok s) :
      Comes db store trail s h none
  | drop {before after : List Handle} {h : Handle} {s : Sweep} {given : Nat}
      (hsplit : (db.given.toList.drop given).reverse = before ++ h :: after)
      (hfold : before.foldlM (fun (s : Sweep) h => do s.drop h (← s.store.fetch h))
        (Sweep.start db store trail) = .ok s) : Comes db store trail s h none
  | cut {before after : List Handle} {h : Handle} {s₁ s : Sweep} {given serial : Nat}
      (hfold : (db.given.toList.drop given).reverse.foldlM
        (fun (s : Sweep) h => do s.drop h (← s.store.fetch h)) (Sweep.start db store trail) =
          .ok s₁) (hsplit : db.learnts.toList = before ++ h :: after)
      (hfold₁ : before.foldlM (Sweep.cut serial) s₁ = .ok s) : Comes db store trail s h none

variable {db db' : Database} {store : Store} {trail : Trail} {s : Sweep} {h : Handle}
  {looked : Option Constraint}

/-- What an operation comes to is stored and counted, and is what it looked up. -/
theorem Represents.next (hr : db.Represents store) (hc : Comes db store trail s h looked) :
    ∃ c, s.store.get? h = some c ∧ s.counts.Covers c ∧ ∀ d, looked = some d → d = c := by
  cases hc with
  | reduce hfetch hsplit hfold =>
      obtain ⟨hlist, hentries⟩ := mapM_fetch hfetch
      obtain ⟨hu, hstored⟩ := underway_of_giveUp hr hlist hentries hsplit hfold
      obtain ⟨c, hc, hc₀, hcovers⟩ := hu.next
      refine ⟨c, hc, hcovers, fun d hd => ?_⟩
      obtain rfl := Option.some.inj hd
      exact Option.some.inj ((hstored _ List.mem_cons_self).symm.trans hc₀)
  | satisfied hsplit hfold =>
      obtain ⟨c, hc, -, hcovers⟩ := (underway_of_satisfied hr hsplit hfold).1.next
      exact ⟨c, hc, hcovers, by simp⟩
  | satisfied_given hfold hsplit hfold₁ =>
      obtain ⟨c, hc, -, hcovers⟩ := (underway_of_satisfied_given hr hfold hsplit hfold₁).next
      exact ⟨c, hc, hcovers, by simp⟩
  | drop hsplit hfold =>
      obtain ⟨c, hc, -, hcovers⟩ := (underway_of_drops hr hsplit hfold).1.next
      exact ⟨c, hc, hcovers, by simp⟩
  | cut hfold hsplit hfold₁ =>
      -- the given constraints were freed before the learnt clauses are looked at
      obtain ⟨hu, -⟩ := underway_after_drops hr hfold
      obtain ⟨c, hc, -, hcovers⟩ := (hu.run (fun _ _ _ => treats_of_cut) hsplit hfold₁).1.next
      exact ⟨c, hc, hcovers, by simp⟩

/-- The lists fit the store after every run. -/
theorem fits_of_built (hb : Built db store) : db.Represents store := by
  induction hb with
  | empty settings => exact represents_empty settings
  | addClause _ hok ih => exact represents_of_addGiven (fun _ _ => by simp) ih hok
  | addAtMost _ hok ih =>
      simp only [addAtMost, bind_eq_ok] at hok
      obtain ⟨_, -, hok⟩ := hok
      exact represents_of_addGiven (fun _ _ => by simp) ih hok
  | learn _ hok ih => exact represents_of_learn ih hok
  | addUnit _ l ih =>
      exact ⟨ih.nodup, ih.live, ih.two_le, ih.count, ih.tallied.congr rfl rfl rfl rfl, ih.given,
        ih.learnts, ih.distinct⟩
  | bump _ hok ih =>
      obtain ⟨hlists, hrel⟩ := relabels_of_bump hok
      exact ih.same hlists (counts_of_bump hok) hrel.same (live_of_bump hok)
  | decay _ ih => exact ih.same ⟨rfl, rfl, rfl, rfl⟩ rfl (.refl _) rfl
  | reduce _ hok ih => exact represents_of_reduce ih hok
  | removeSatisfied _ hok ih => exact represents_of_removeSatisfied ih hok
  | truncate _ hok ih => exact (truncates_of_truncate ih hok).1
  | rearrange _ hs hlive ih => exact ih.same (.refl _) rfl hs hlive

/-- The operations that remove constraints are not refused, if the assignment knows the variables
of what is stored and, for the removal of what is satisfied, no level is open. -/
theorem Represents.succeeds (hr : db.Represents store)
    (hknown : ∀ h c, store.get? h = some c → ∀ l ∈ c.lits.toList, l.var.index < trail.varCount) :
    Succeeds (db.reduce store trail) ∧
      (trail.isGround = true → ∀ givenToo strengthen,
        Succeeds (db.removeSatisfied store trail givenToo strengthen)) ∧
      ∀ given serial units, Succeeds (db.truncate store trail given serial units) := by
  have hP := Constraint.manageable_known trail.varCount
  have hformed : ∀ h c, store.get? h = some c → c.Known trail.varCount := fun h c hc =>
    ⟨hr.two_le h c hc, hknown h c hc⟩
  have hstored : ∀ h ∈ db.given.toList ++ db.learnts.toList, ∃ c, store.get? h = some c :=
    fun h => (hr.live h).2
  refine ⟨?_, fun hground givenToo strengthen => ?_, fun given serial units => ?_⟩
  · obtain ⟨db', s, hok, -⟩ := db.exists_reduce hP (List.nodup_append.1 hr.nodup).2.1
      (fun h hh => hstored h (List.mem_append_right _ hh)) hformed
    exact ⟨_, hok⟩
  · obtain ⟨db', s, hok, -⟩ := exists_removeSatisfied hP givenToo strengthen
      (by simpa [Trail.isGround] using hground) hr.nodup hstored hformed
    exact ⟨_, hok⟩
  · obtain ⟨db', s, hok, -⟩ := exists_truncate hP hr.nodup hstored hformed
    exact ⟨_, hok⟩

/-- After every run of operations the two lists together name each stored constraint once and
nothing else, the counts are those of the lists, and no two learnt clauses have one serial number.
No operation comes to a constraint that is not stored or not counted, so under an assignment that
knows its variables none of them is refused. Going back leaves the first given constraints, the
learnt clauses numbered below the limit and the first facts, as they are. -/
theorem represents_of_built (hb : Built db store) :
    db.Represents store ∧
      (∀ trail s h looked, Comes db store trail s h looked →
        ∃ c, s.store.get? h = some c ∧ s.counts.Covers c ∧ ∀ d, looked = some d → d = c) ∧
      (∀ trail : Trail,
        (∀ h c, store.get? h = some c → ∀ l ∈ c.lits.toList, l.var.index < trail.varCount) →
          Succeeds (db.reduce store trail) ∧
            (trail.isGround = true → ∀ givenToo strengthen,
              Succeeds (db.removeSatisfied store trail givenToo strengthen)) ∧
            ∀ given serial units, Succeeds (db.truncate store trail given serial units)) ∧
      ∀ trail given serial units db' s,
        db.truncate store trail given serial units = .ok (db', s) →
          db.Truncates store given serial units db' s.store := by
  have hr := fits_of_built hb
  exact ⟨hr, fun _ _ _ _ => hr.next, fun _ => hr.succeeds,
    fun _ _ _ _ _ _ hok => (truncates_of_truncate hr hok).2⟩

/-- A clause is given and one is learnt; then an at-most constraint, another learnt clause and a fact
are added and taken back. -/
theorem represents_after_truncate :
    ∃ db store, Built db store ∧ db.given.size = 1 ∧ db.learnts.size = 1 ∧ db.units = #[] ∧
      store.live = 2 ∧ db.nextSerial = 1 ∧ db.Represents store := by
  let lits (vs : List Nat) : Array Lit := (vs.map fun v => (⟨⟨v⟩, false⟩ : Lit)).toArray
  let trail : Trail := { Trail.empty with cells := Array.replicate 4 {} }
  have hpass : ((do
      let x₁ ← (empty {}).addClause Store.empty (lits [0, 1])
      let x₂ ← x₁.2.1.learn x₁.2.2 (lits [1, 2])
      let x₃ ← x₂.2.1.addAtMost x₂.2.2 (lits [0, 1, 3]) 1
      let x₄ ← x₃.2.1.learn x₃.2.2 (lits [2, 3])
      (x₄.2.1.addUnit ⟨⟨3⟩, true⟩).truncate x₄.2.2 trail 1 1 0) : Checked _).toOption.any
        (fun x => x.1.given.size == 1 && x.1.learnts.size == 1 && x.1.units == #[] &&
          x.2.store.live == 2 && x.1.nextSerial == 1) = true := by
    decide +kernel
  obtain ⟨⟨db, s⟩, hrun, htest⟩ := exists_ok_of_test hpass
  simp only [bind_eq_ok] at hrun
  obtain ⟨⟨h₁, db₁, store₁⟩, h₁, ⟨h₂, db₂, store₂⟩, h₂, ⟨h₃, db₃, store₃⟩, h₃,
    ⟨h₄, db₄, store₄⟩, h₄, h₅⟩ := hrun
  have hbuilt : Built db s.store :=
    .truncate (.addUnit (.learn (.addAtMost (.learn (.addClause (.empty {}) h₁) h₂) h₃) h₄) _) h₅
  simp only [Bool.and_eq_true, beq_iff_eq] at htest
  obtain ⟨⟨⟨⟨hgiven, hlearnts⟩, hunits⟩, hlive⟩, hserial⟩ := htest
  exact ⟨db, s.store, hbuilt, hgiven, hlearnts, hunits, hlive, hserial,
    (represents_of_built hbuilt).1⟩

end Database

end CardSat
