import CardSat.Engine
import CardSat.Proofs.Analysis
import CardSat.Proofs.Analysis.Core
import CardSat.Proofs.Analysis.Covering
import CardSat.Proofs.Database.Removal
import CardSat.Proofs.Decision
import CardSat.Proofs.Network.Assigning
import CardSat.Proofs.Network.Resizing
import CardSat.Proofs.Propagation

set_option autoImplicit false

/-! # The invariant of an engine

`Engine.Fit e R`: the parts of the engine fit together, and what it has derived holds in the worlds
of `R`. `Engine.Problem e` are the worlds in which its given constraints and facts hold; an engine
that is fit for them has derived nothing but consequences of these.

The worlds are a parameter since they are not those of the problem everywhere. While a constraint is
added, they are the worlds of the problem in which the new constraint holds as well. In the middle
of a replay they are those of the snapshot, which is not the problem yet. A step that is shown to
keep an engine fit for any worlds serves in all of these places.

## Steps

Every step that a search is made of keeps an engine fit and leaves its history alone
(`Engine.Reaches`): whatever a snapshot counts on is still there afterwards (`Engine.Grown`). The
relation is transitive, so a proof about a longer operation follows its steps and puts their
relations together.

Whether constraints are forgotten (`Network.Watching`) is followed apart, because a conflict
disturbs it: propagation stops at the violated constraint and leaves the watchers behind it
unvisited. A step that takes back the level of the conflict makes up for it. So lemmas about steps
have a proposition `good` as a parameter, under which nothing is forgotten.
-/

namespace CardSat

namespace Trail

/-- A free variable is a known one without a literal on the trail. -/
theorem free_iff {t : Trail} (hv : t.Valid) {v : Var} :
    t.Free v ↔ v.index < t.varCount ∧ ∀ l ∈ t, l.var ≠ v := by
  rw [Free, show (t.cellOf v).value.isUnset = true ↔ _ from isUnset_iff (l := ⟨v, false⟩),
    hv.truth_unset]
  refine and_congr_right fun _ => ⟨?_, fun h => ⟨fun hl => h _ hl rfl, fun hl => h _ hl rfl⟩⟩
  rintro ⟨hpos, hneg⟩ ⟨u, b⟩ hl rfl
  cases b
  · exact hpos hl
  · exact hneg hl

/-- A variable that is free on a longer trail is free on a shorter one. -/
theorem Free.of_subset {t t' : Trail} {v : Var} (h : t'.Free v) (hv : t.Valid) (hv' : t'.Valid)
    (hcount : t'.varCount = t.varCount) (hsub : ∀ l ∈ t, l ∈ t') : t.Free v := by
  rw [free_iff hv'] at h
  exact (free_iff hv).2 ⟨hcount ▸ h.1, fun l hl => h.2 l (hsub l hl)⟩

/-- A new variable is free. -/
theorem free_push {t : Trail} {v : Var} (h : Free { t with cells := t.cells.push {} } v) :
    t.Free v ∨ v = ⟨t.varCount⟩ := by
  obtain ⟨hlt, hu⟩ := h
  rw [cellOf_push] at hu
  simp only [varCount, Array.size_push] at hlt
  rcases Nat.lt_or_ge v.index t.cells.size with h | h
  · exact Or.inl ⟨h, hu⟩
  · right
    cases v
    simp only [varCount, Var.mk.injEq] at h hlt ⊢
    omega

end Trail

namespace Engine

/-! ## The invariant -/

/-- The literals that are false for good: outside the incremental mode the ground level is
never taken back. -/
def dead (e : Engine) (l : Lit) : Prop :=
  e.settings.incremental = false ∧ l.neg ∈ e.trail ∧ e.trail.levelOf l.var = 0

/-- The parts of an engine fit together, and what it has derived holds in the worlds of `R`. -/
structure Fit (e : Engine) (R : World → Prop) : Prop where
  sane : e.network.Sane e.dead e.network.index.line
  sound : e.network.Sound R
  units : ∀ w, R w → ∀ l ∈ e.database.units.toList, l.holds w = true
  listed : e.database.Listed e.store
  ready : e.decisions.Ready e.trail.Free
  clean : e.analysis.marks.Clean
  marked : e.analysis.marks.Covers e.trail.varCount

/-- The worlds in which the given constraints and the facts hold. Outside the incremental mode
given constraints may have been simplified by the literals of the ground level, which
therefore count as facts. -/
structure Problem (e : Engine) (w : World) : Prop where
  given : ∀ h ∈ e.database.given.toList, ∀ c, e.store.get? h = some c → c.holds w = true
  units : ∀ l ∈ e.database.units.toList, l.holds w = true
  ground : e.settings.incremental = false →
    ∀ l ∈ e.trail, e.trail.levelOf l.var = 0 → l.holds w = true

/-- The facts are literals of the ground level. -/
def Placed (e : Engine) : Prop :=
  ∀ l ∈ e.database.units.toList, l ∈ e.trail ∧ e.trail.levelOf l.var = 0

/-- Nothing waits to be propagated. -/
abbrev Idle (e : Engine) : Prop := e.trail.head = e.trail.lits.size

/-- Nothing is forgotten. -/
abbrev Watching (e : Engine) : Prop := e.network.Watching fun _ _ => False

variable {e e' e'' : Engine} {R R' : World → Prop}

/-- In the incremental mode the problem is what the given constraints and the facts mean. -/
theorem problem_iff_of_incremental {w : World}
    (hi : e.settings.incremental = true) : e.Problem w ↔
      (∀ h ∈ e.database.given.toList, ∀ c, e.store.get? h = some c → c.holds w = true) ∧
        ∀ l ∈ e.database.units.toList, l.holds w = true := by
  refine ⟨fun hw => ⟨hw.given, hw.units⟩, fun hw => ⟨hw.1, hw.2, fun hno => ?_⟩⟩
  rw [hi] at hno
  cases hno

/-- What is fit for some worlds is fit for fewer. -/
theorem Fit.anti (hf : e.Fit R) (hsub : ∀ w, R' w → R w) : e.Fit R' :=
  { hf with
    sound := hf.sound.anti hsub
    units := fun w hw => hf.units w (hsub w hw) }

/-- What an engine is fit for is part of its problem. -/
theorem Fit.problem (hf : e.Fit R) {w : World} (hw : R w) : e.Problem w where
  given h _ c hc := hf.sound.stored w hw h c hc
  units := hf.units w hw
  ground _ := hf.sound.ground w hw

/-! ## History -/

/-- Everything that was there is there still: the lists have only grown, and of the stored
constraints all that were given are left, and none that is not new. -/
structure Grown (e e' : Engine) : Prop where
  given : e.database.given.toList <+: e'.database.given.toList
  units : e.database.units.toList <+: e'.database.units.toList
  serial : e.database.nextSerial ≤ e'.database.nextSerial
  stored : ∀ h ∈ e.database.given.toList, ∀ c, e.store.get? h = some c →
    ∃ c', e'.store.get? h = some c' ∧ c.Same c'
  old : ∀ h c', e'.store.get? h = some c' →
    h ∈ e.database.given.toList ∨ (∃ k, c'.serial? = some k ∧ k < e.database.nextSerial) →
    ∃ c, e.store.get? h = some c ∧ c.Same c'

/-- What every step but a rollback does to an engine. -/
structure Evolves (e e' : Engine) : Prop where
  settings : e'.settings = e.settings
  varCount : e.trail.varCount ≤ e'.trail.varCount
  problem : ∀ w, e'.Problem w → e.Problem w
  grown : e.settings.incremental = true → e.Grown e'

/-- Nothing is lost where nothing happens. -/
theorem Grown.refl (e : Engine) : e.Grown e :=
  ⟨List.prefix_rfl, List.prefix_rfl, Nat.le_refl _, fun _ _ c hc => ⟨c, hc, .refl c⟩,
    fun _ c hc _ => ⟨c, hc, .refl c⟩⟩

/-- History is kept by one step after another. -/
theorem Grown.trans (h : e.Grown e') (h' : e'.Grown e'') : e.Grown e'' where
  given := h.given.trans h'.given
  units := h.units.trans h'.units
  serial := Nat.le_trans h.serial h'.serial
  stored a ha c hc := by
    obtain ⟨c', hc', hs⟩ := h.stored a ha c hc
    obtain ⟨c'', hc'', hs'⟩ := h'.stored a (h.given.subset ha) c' hc'
    exact ⟨c'', hc'', hs.trans hs'⟩
  old a c'' hc'' hold := by
    obtain ⟨c', hc', hs'⟩ := h'.old a c'' hc'' (hold.imp (fun ha => h.given.subset ha)
      fun hyoung => hyoung.imp fun k hk => hk.imp_right fun hlt => Nat.lt_of_lt_of_le hlt h.serial)
    obtain ⟨c, hc, hs⟩ := h.old a c' hc' (hold.imp_right fun hyoung =>
      hyoung.imp fun k hk => hk.imp_left fun hk => hs'.serial?_eq ▸ hk)
    exact ⟨c, hc, hs.trans hs'⟩

/-- No step. -/
theorem Evolves.refl (e : Engine) : e.Evolves e :=
  ⟨rfl, Nat.le_refl _, fun _ => id, fun _ => .refl e⟩

/-- One step after another. -/
theorem Evolves.trans (h : e.Evolves e') (h' : e'.Evolves e'') : e.Evolves e'' where
  settings := h'.settings.trans h.settings
  varCount := Nat.le_trans h.varCount h'.varCount
  problem w hw := h.problem w (h'.problem w hw)
  grown hi := (h.grown hi).trans (h'.grown (h.settings ▸ hi))

/-- Where the ground level has only grown as well, the problem has become harder. -/
theorem Evolves.of_grown (hset : e'.settings = e.settings)
    (hcount : e.trail.varCount ≤ e'.trail.varCount) (hgrown : e.Grown e')
    (hground : ∀ l ∈ e.trail, e.trail.levelOf l.var = 0 →
      l ∈ e'.trail ∧ e'.trail.levelOf l.var = 0) : e.Evolves e' where
  settings := hset
  varCount := hcount
  problem w hw :=
    { given := fun h hh c hc => by
        obtain ⟨c', hc', hs⟩ := hgrown.stored h hh c hc
        rw [← hs.holds_eq]
        exact hw.given h (hgrown.given.subset hh) c' hc'
      units := fun l hl => hw.units l (hgrown.units.subset hl)
      ground := fun hi l hl hlev => by
        obtain ⟨hl', hlev'⟩ := hground l hl hlev
        exact hw.ground (hset ▸ hi) l hl' hlev' }
  grown _ := hgrown

/-- Only activities and the order of literals have changed. -/
theorem Grown.of_same (hdb : e.database.SameLists e'.database) (hstore : e.store.Same e'.store) :
    e.Grown e' where
  given := hdb.given ▸ List.prefix_rfl
  units := hdb.units ▸ List.prefix_rfl
  serial := Nat.le_of_eq hdb.nextSerial.symm
  stored h _ c hc := hstore.forth h c hc
  old h c hc _ := hstore.back h c hc

/-! ## Steps of a search -/

/-- What every step of a search does to an engine. -/
structure Reaches (R : World → Prop) (e e' : Engine) : Prop where
  fit : e'.Fit R
  evolves : e.Evolves e'
  varCount : e'.trail.varCount = e.trail.varCount
  decides : e'.decisions.decides = e.decisions.decides
  placed : e.Placed → e'.Placed

namespace Reaches

/-- No step. -/
theorem refl (hf : e.Fit R) : e.Reaches R e := ⟨hf, .refl e, rfl, rfl, id⟩

/-- One step after another. -/
theorem trans (h : e.Reaches R e') (h' : e'.Reaches R e'') : e.Reaches R e'' :=
  ⟨h'.fit, h.evolves.trans h'.evolves, h'.varCount.trans h.varCount, h'.decides.trans h.decides,
    fun hp => h'.placed (h.placed hp)⟩

/-- Steps that are good for some worlds are good for fewer. -/
theorem anti (h : e.Reaches R e') (hsub : ∀ w, R' w → R w) : e.Reaches R' e' :=
  { h with fit := h.fit.anti hsub }

/-- A step that changes neither the lists nor the ground level, but perhaps adds to it. -/
theorem of_same (hset : e'.settings = e.settings) (hcount : e'.trail.varCount = e.trail.varCount)
    (hdb : e.database.SameLists e'.database) (hstore : e.store.Same e'.store)
    (hground : ∀ l ∈ e.trail, e.trail.levelOf l.var = 0 →
      l ∈ e'.trail ∧ e'.trail.levelOf l.var = 0)
    (hd : e'.decisions.decides = e.decisions.decides) (hf : e'.Fit R) : e.Reaches R e' where
  fit := hf
  evolves := .of_grown hset (Nat.le_of_eq hcount.symm) (.of_same hdb hstore) hground
  varCount := hcount
  decides := hd
  placed hp l hl := by
    obtain ⟨hm, hlev⟩ := hp l (hdb.units ▸ hl)
    exact hground l hm hlev

/-- A step that changes the network only, and forgets none of its literals. -/
theorem of_network (hf : e.Fit R) {n : Network} (hs : n.Sane e.dead n.index.line)
    (hr : n.Sound R) (hcount : n.trail.varCount = e.trail.varCount)
    (hstore : e.store.Same n.store)
    (hmem : ∀ l ∈ e.trail, l ∈ n.trail ∧ n.trail.levelOf l.var = e.trail.levelOf l.var) :
    e.Reaches R { e with network := n } := by
  have hground : ∀ l ∈ e.trail, e.trail.levelOf l.var = 0 →
      l ∈ n.trail ∧ n.trail.levelOf l.var = 0 := fun l hl hlev =>
    ⟨(hmem l hl).1, (hmem l hl).2.trans hlev⟩
  refine .of_same rfl hcount (.refl _) hstore hground rfl
    { hf with
      sane := hs.dead_mono (fun l ⟨hi, hl, hlev⟩ => ?_) fun l hl => hl.2.1
      sound := hr
      listed := hf.listed.same (.refl _) hstore
      ready := hf.ready.mono fun v hv => hv.of_subset hf.sane.trail hs.trail hcount fun l hl =>
        (hmem l hl).1
      marked := by
        rw [trail, hcount]
        exact hf.marked }
  exact ⟨hi, hground l.neg hl hlev⟩

end Reaches

end Engine

end CardSat
