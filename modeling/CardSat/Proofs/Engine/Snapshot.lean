import CardSat.Engine.Rollback
import CardSat.Proofs.Engine

set_option autoImplicit false

/-! # What a snapshot counts on

A snapshot holds numbers only. What it stands for are the constraints and facts that were there when
it was taken (`Engine.Survives`), and it can be loaded as long as the engine has them still
(`Engine.Restorable`). Every step keeps them, and so does going back to a younger snapshot
(`Engine.Cut`); the worlds in which they hold stay the same (`Engine.Kept`).

Lists that only grow at their end are what makes numbers enough. The oldest given constraints and
facts are a prefix of the lists (`Engine.Grown`), so a number that was their length names the same
ones later. The learnt clauses are thinned out from the middle of their list, so they are told apart
by their serial numbers, and a clause counts as old when its number is below that of the snapshot.
-/

namespace CardSat

/-- A snapshot that was taken before another one. -/
structure Snapshot.Older (s s' : Snapshot) : Prop where
  vars : s.vars ≤ s'.vars
  clauses : s.clauses ≤ s'.clauses
  learnts : s.learnts ≤ s'.learnts
  units : s.units ≤ s'.units

/-- A snapshot is as old as itself. -/
theorem Snapshot.Older.refl (s : Snapshot) : s.Older s :=
  ⟨Nat.le_refl _, Nat.le_refl _, Nat.le_refl _, Nat.le_refl _⟩

namespace Engine

variable {e e' : Engine} {R : World → Prop} {s s' : Snapshot} {w : World}

/-- A constraint that is as old as a snapshot. -/
def Survives (e : Engine) (s : Snapshot) (h : Handle) (c : Constraint) : Prop :=
  h ∈ e.database.given.toList.take s.clauses ∨ ∃ k, c.serial? = some k ∧ k < s.learnts

/-- The worlds in which the given constraints and the facts hold that are as old as a
snapshot. -/
structure Kept (e : Engine) (s : Snapshot) (w : World) : Prop where
  given : ∀ h ∈ e.database.given.toList.take s.clauses, ∀ c, e.store.get? h = some c →
    c.holds w = true
  units : ∀ l ∈ e.database.units.toList.take s.units, l.holds w = true

/-- Everything that a snapshot counts on is there, and the learnt clauses among it follow from
the rest. -/
structure Restorable (e : Engine) (s : Snapshot) : Prop where
  vars : s.vars ≤ e.trail.varCount
  clauses : s.clauses ≤ e.database.given.toList.length
  learnts : s.learnts ≤ e.database.nextSerial
  units : s.units ≤ e.database.units.toList.length
  formed : ∀ h c, e.store.get? h = some c → e.Survives s h c → c.WellFormed s.vars
  implied : s.ok = true → ∀ w, e.Kept s w → ∀ h c, e.store.get? h = some c →
    e.Survives s h c → c.holds w = true

/-- A snapshot holds the present numbers. -/
theorem snapshot_eq_ok {ok : Bool} : e.snapshot ok = .ok s ↔ e.trail.isGround = true ∧
    s = ⟨ok, e.trail.varCount, e.database.given.size, e.database.nextSerial,
      e.database.units.size⟩ := by
  simp only [snapshot, bind_eq_ok, require_eq_ok, pure_eq_ok]
  constructor
  · rintro ⟨_, hground, rfl⟩
    exact ⟨hground, rfl⟩
  · rintro ⟨hground, rfl⟩
    exact ⟨(), hground, rfl⟩

/-- A snapshot counts on the present state. -/
theorem restorable_of_snapshot {ok : Bool} (hf : e.Fit R) (hok : ok = true → ∀ w, e.Problem w → R w)
    (hi : e.settings.incremental = true) (h : e.snapshot ok = .ok s) :
    s.ok = ok ∧ e.Restorable s ∧ ∀ w, e.Kept s w ↔ e.Problem w := by
  obtain ⟨-, rfl⟩ := snapshot_eq_ok.1 h
  have hgiven : ∀ a ∈ e.database.given.toList,
      a ∈ e.database.given.toList.take e.database.given.size := fun a ha => by
    rwa [List.take_of_length_le (by simp)]
  have hunits : ∀ l ∈ e.database.units.toList,
      l ∈ e.database.units.toList.take e.database.units.size := fun l hl => by
    rwa [List.take_of_length_le (by simp)]
  have hkept : ∀ w, e.Kept ⟨ok, e.trail.varCount, e.database.given.size, e.database.nextSerial,
      e.database.units.size⟩ w ↔ e.Problem w := fun w => by
    rw [problem_iff_of_incremental hi]
    constructor
    · exact fun hw =>
        ⟨fun a ha => hw.given a (hgiven a ha), fun l hl => hw.units l (hunits l hl)⟩
    · exact fun hw => ⟨fun a ha => hw.1 a (List.mem_of_mem_take ha),
        fun l hl => hw.2 l (List.mem_of_mem_take hl)⟩
  refine ⟨rfl, ⟨Nat.le_refl _, by simp, Nat.le_refl _, by simp, fun a c hc _ =>
    hf.sane.formed a c hc, fun hyes w hw a c hc _ => ?_⟩, hkept⟩
  exact hf.sound.stored w (hok hyes w ((hkept w).1 hw)) a c hc

/-! ## Steps -/

section

variable (hr : e.Restorable s) (hg : e.Grown e')
include hr hg

/-- The oldest given constraints stay the same. -/
theorem take_given_of_grown :
    e'.database.given.toList.take s.clauses = e.database.given.toList.take s.clauses := by
  obtain ⟨new, hnew⟩ := hg.given
  rw [← hnew, List.take_append_of_le_length hr.clauses]

/-- The oldest facts stay the same. -/
theorem take_units_of_grown :
    e'.database.units.toList.take s.units = e.database.units.toList.take s.units := by
  obtain ⟨new, hnew⟩ := hg.units
  rw [← hnew, List.take_append_of_le_length hr.units]

/-- What a snapshot counts on was there before. -/
theorem survives_of_grown {h : Handle} {c' : Constraint} (hc' : e'.store.get? h = some c')
    (hsv : e'.Survives s h c') :
    ∃ c, e.store.get? h = some c ∧ c.Same c' ∧ e.Survives s h c := by
  rw [Survives, take_given_of_grown hr hg] at hsv
  obtain ⟨c, hc, hsame⟩ := hg.old h c' hc' (hsv.imp List.mem_of_mem_take
    fun hyoung => hyoung.imp fun k hk => hk.imp_right fun hlt => Nat.lt_of_lt_of_le hlt hr.learnts)
  exact ⟨c, hc, hsame, hsv.imp_right fun hyoung =>
    hyoung.imp fun k hk => hk.imp_left fun hk => hsame.serial?_eq ▸ hk⟩

/-- The worlds in which they hold stay the same. -/
theorem kept_of_grown : e'.Kept s w ↔ e.Kept s w := by
  constructor
  · intro hw
    refine ⟨fun h hh c hc => ?_, fun l hl => hw.units l (take_units_of_grown hr hg ▸ hl)⟩
    obtain ⟨c', hc', hsame⟩ := hg.stored h (List.mem_of_mem_take hh) c hc
    rw [← hsame.holds_eq]
    exact hw.given h (take_given_of_grown hr hg ▸ hh) c' hc'
  · intro hw
    refine ⟨fun h hh c' hc' => ?_, fun l hl => hw.units l (take_units_of_grown hr hg ▸ hl)⟩
    obtain ⟨c, hc, hsame, -⟩ := survives_of_grown hr hg hc' (Or.inl hh)
    rw [hsame.holds_eq]
    exact hw.given h (take_given_of_grown hr hg ▸ hh) c hc

/-- A snapshot can still be loaded after steps that only add. -/
theorem Restorable.grown (hv : e.trail.varCount ≤ e'.trail.varCount) : e'.Restorable s where
  vars := Nat.le_trans hr.vars hv
  clauses := Nat.le_trans hr.clauses hg.given.length_le
  learnts := Nat.le_trans hr.learnts hg.serial
  units := Nat.le_trans hr.units hg.units.length_le
  formed h c' hc' hsv := by
    obtain ⟨c, hc, hsame, hsv'⟩ := survives_of_grown hr hg hc' hsv
    exact hsame.wellFormed (hr.formed h c hc hsv')
  implied hok w hw h c' hc' hsv := by
    obtain ⟨c, hc, hsame, hsv'⟩ := survives_of_grown hr hg hc' hsv
    rw [hsame.holds_eq]
    exact hr.implied hok w ((kept_of_grown hr hg).1 hw) h c hc hsv'

end

/-! ## Going back -/

/-- What is left of an engine once everything younger than a snapshot is gone. -/
structure Cut (s : Snapshot) (e e' : Engine) : Prop where
  settings : e'.settings = e.settings
  varCount : e'.trail.varCount = s.vars
  given : e'.database.given.toList = e.database.given.toList.take s.clauses
  units : e'.database.units.toList = e.database.units.toList.take s.units
  serial : e'.database.nextSerial = s.learnts
  stored : ∀ h ∈ e.database.given.toList.take s.clauses, ∀ c, e.store.get? h = some c →
    e'.store.get? h = some c
  old : ∀ h c, e'.store.get? h = some c → e.store.get? h = some c ∧ e.Survives s h c
  decides : ∀ v : Var, v.index < s.vars → e'.decisions.decides v = e.decisions.decides v

namespace Cut

variable (hc : Cut s' e e') (ho : s.Older s')
include hc ho

/-- The given constraints of an older snapshot stay. -/
theorem take_given :
    e'.database.given.toList.take s.clauses = e.database.given.toList.take s.clauses := by
  rw [hc.given, List.take_take, Nat.min_eq_left ho.clauses]

/-- The facts of an older snapshot stay. -/
theorem take_units :
    e'.database.units.toList.take s.units = e.database.units.toList.take s.units := by
  rw [hc.units, List.take_take, Nat.min_eq_left ho.units]

/-- The worlds of an older snapshot stay the same. -/
theorem kept_iff : e'.Kept s w ↔ e.Kept s w := by
  constructor
  · intro hw
    refine ⟨fun h hh c hst => ?_, fun l hl => hw.units l (hc.take_units ho ▸ hl)⟩
    exact hw.given h (hc.take_given ho ▸ hh) c
      (hc.stored h (List.take_subset_take_left _ ho.clauses hh) c hst)
  · intro hw
    exact ⟨fun h hh c hst => hw.given h (hc.take_given ho ▸ hh) c (hc.old h c hst).1,
      fun l hl => hw.units l (hc.take_units ho ▸ hl)⟩

/-- An older snapshot can be loaded still. -/
theorem restorable (hr : e.Restorable s) : e'.Restorable s where
  vars := hc.varCount ▸ ho.vars
  clauses := by
    rw [hc.given, List.length_take]
    exact Nat.le_min.2 ⟨ho.clauses, hr.clauses⟩
  learnts := hc.serial ▸ ho.learnts
  units := by
    rw [hc.units, List.length_take]
    exact Nat.le_min.2 ⟨ho.units, hr.units⟩
  formed h c hst hsv := by
    rw [Survives, hc.take_given ho] at hsv
    exact hr.formed h c (hc.old h c hst).1 hsv
  implied hok w hw h c hst hsv := by
    rw [Survives, hc.take_given ho] at hsv
    exact hr.implied hok w ((hc.kept_iff ho).1 hw) h c (hc.old h c hst).1 hsv

end Cut

end Engine

end CardSat
