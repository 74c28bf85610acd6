import CardSat.Proofs.Engine.Steps

set_option autoImplicit false

/-! # Storing constraints

A constraint that holds in the worlds of interest is stored and put on watch. Nothing is forgotten
but, perhaps, the new constraint itself: none of its watched literals may have been propagated to
the contrary. A learnt clause has such literals, but it forces its first literal.

The lemmas about given constraints and about learnt clauses are alike in what they do to the network
(`Network.Stores`), and differ in what they do to the lists. A learnt clause is bumped as soon as it
is stored, which may scale the activities of all others. So the network is compared with the one in
between, where the clause is stored and nothing is scaled yet.
-/

namespace CardSat

namespace Engine

variable {e e' : Engine} {R : World → Prop} {l : Lit} {h : Handle} {c : Constraint}

/-! ## New constraints -/

/-- The network once a constraint has been stored and put on watch. -/
theorem stores_of_added {n : Network} {store : Store} {index : WatchIndex}
    (hadd : Database.Added n.store store h c) (hc : c.WellFormed n.trail.varCount)
    (hw : n.index.watch c h = .ok index) :
    n.Stores { n with store := store, index := index } h c where
  fresh := hadd.fresh
  size := hadd.size
  get? := hadd.get?
  trail := rfl
  watchers l := WatchIndex.watch_eq_ok hc hw l

/-- A clause whose activity has been scaled since it was stored is watched like the stored one. -/
theorem stores_of_relabels {n : Network} {store₁ store : Store} {index : WatchIndex}
    {c' : Constraint} (hadd : Database.Added n.store store₁ h c) (hrel : store₁.Relabels store)
    (hget : store.get? h = some c') (hat : c.isAtMost = false) (hc : c.WellFormed n.trail.varCount)
    (hw : n.index.watch c' h = .ok index) :
    c.Same c' ∧ c'.lits = c.lits ∧ n.index.watch c h = .ok index ∧
      n.Stores { n with store := store₁, index := index } h c := by
  obtain ⟨c'', hget', hkind, hlits⟩ := hrel.forth h c (by rw [hadd.get?, if_pos rfl])
  obtain rfl := Option.some.inj (hget.symm.trans hget')
  have hsame := Constraint.Same.of_lits_eq hkind hlits
  have hw' := (WatchIndex.watch_congr (hsame.isAtMost_eq.trans hat) hat hlits.symm).trans hw
  exact ⟨hsame, hlits, hw', stores_of_added hadd hc hw'⟩

/-- A constraint that is stored under a new handle, and neither given before nor numbered as
an old learnt clause, is new. -/
theorem Grown.of_added {store : Store} (hl : e.database.Listed e.store)
    (hadd : Database.Added e.store store h c) (hrel : store.Relabels e'.store)
    (hnew : ∀ k, c.serial? = some k → e.database.nextSerial ≤ k)
    (hgiven : e.database.given.toList <+: e'.database.given.toList)
    (hunits : e'.database.units = e.database.units)
    (hserial : e.database.nextSerial ≤ e'.database.nextSerial) : e.Grown e' where
  given := hgiven
  units := hunits ▸ List.prefix_rfl
  serial := hserial
  stored a ha d hd := by
    have hne : a ≠ h := by
      rintro rfl
      exact hl.not_mem_fresh hadd.fresh (List.mem_append_left _ ha)
    have hd' : store.get? a = some d := by rw [hadd.get?, if_neg hne, hd]
    obtain ⟨d', hd'', hk, hls⟩ := hrel.forth a d hd'
    exact ⟨d', hd'', .of_lits_eq hk hls⟩
  old a d' hd' hold := by
    obtain ⟨d, hd, hk, hls⟩ := hrel.back a d' hd'
    have hs : d.Same d' := .of_lits_eq hk hls
    by_cases ha : a = h
    · subst ha
      rw [hadd.get?, if_pos rfl] at hd
      obtain rfl := Option.some.inj hd
      -- the new constraint is none of the old ones: its handle is fresh, and so is its serial
      rcases hold with hmem | ⟨k, hks, hlt⟩
      · exact absurd (List.mem_append_left _ hmem) (hl.not_mem_fresh hadd.fresh)
      · have := hnew k (hs.serial?_eq ▸ hks)
        omega
    · rw [hadd.get?, if_neg ha] at hd
      exact ⟨d, hd, hs⟩

/-- A stored constraint is put on its lines. -/
theorem watch_eq_ok {e e' : Engine} (hw : e.watch h = .ok e') :
    ∃ c index, e.store.get? h = some c ∧ e.network.index.watch c h = .ok index ∧
      e' = { e with network := { e.network with index } } := by
  simp only [watch, bind_eq_ok, pure_eq_ok, Store.fetch_eq_ok] at hw
  obtain ⟨c, hc, index, hindex, rfl⟩ := hw
  exact ⟨c, index, hc, hindex, rfl⟩

/-! ## Given constraints -/

/-- What storing a given constraint does. -/
structure Gives (R : World → Prop) (e e' : Engine) (c : Constraint) : Prop where
  fit : e'.Fit R
  evolves : e.Evolves e'
  trail : e'.trail = e.trail
  decides : e'.decisions.decides = e.decisions.decides
  units : e'.database.units = e.database.units
  holds : ∀ w, e'.Problem w → c.holds w = true
  watching : (∀ key ∈ c.keys, key ∉ e.trail) → e.Watching → e'.Watching

/-- A given constraint that holds in the worlds of interest can be stored. -/
theorem gives_of_addGiven {kind : Kind} {lits : Array Lit} {db : Database} {store : Store}
    (hf : e.Fit R) (hk : ∀ a s, kind ≠ .learnt a s)
    (hc : (⟨kind, lits⟩ : Constraint).WellFormed e.trail.varCount)
    (hR : ∀ w, R w → (⟨kind, lits⟩ : Constraint).holds w = true)
    (hadd : e.database.addGiven e.store kind lits = .ok (h, db, store))
    (hw : { e with database := db, network := { e.network with store } }.watch h = .ok e') :
    Gives R e e' ⟨kind, lits⟩ := by
  obtain ⟨c₁, index, hc₁, hindex, rfl⟩ := watch_eq_ok hw
  obtain ⟨ha, hl, hgiven, hlearnts, hunits, hserial⟩ := Database.added_of_addGiven hk hf.listed hadd
  have hget : store.get? h = some ⟨kind, lits⟩ := by rw [ha.get?, if_pos rfl]
  obtain rfl := Option.some.inj (hc₁.symm.trans hget)
  have hst := stores_of_added (n := e.network) ha hc hindex
  have hprefix : e.database.given.toList <+: db.given.toList := by simp [hgiven]
  refine ⟨{ hf with
      sane := hf.sane.stores hst hc
      sound := hf.sound.stores hst hR
      units := fun w hw => hunits ▸ hf.units w hw
      listed := hl }, ?_, rfl, rfl, hunits, fun w hw => ?_, fun hkeys hw => ?_⟩
  · refine .of_grown rfl (Nat.le_refl _) (.of_added hf.listed ha (.refl _) (fun k hks => ?_) hprefix
      hunits (Nat.le_of_eq hserial.symm)) fun _ hl hlev => ⟨hl, hlev⟩
    unfold Constraint.serial? at hks
    split at hks
    next a s hk' => exact absurd hk' (hk a s)
    next => cases hks
  · exact hw.given h (by simp [hgiven]) _ hget
  -- of the new constraint no watched literal has been passed on
  · refine (hw.stores hst).mono fun a d hd key hkey hdone hdue => ?_
    rcases hdue with hno | rfl
    · exact hno.elim
    · obtain rfl := Option.some.inj (hget.symm.trans hd)
      exact absurd (List.mem_of_mem_take hdone) (hkeys key hkey)

/-! ## Facts -/

/-- A fact becomes known at the ground level. -/
theorem reaches_of_fact (hf : e.Fit R) (hR : ∀ w, R w → l.holds w = true)
    (hground : e.trail.level = 0)
    (hl : { e with database := e.database.addUnit l }.assign l none = .ok e') :
    e.Reaches R e' ∧ e.trail.Assigned l none e'.trail ∧ (e.Watching → e'.Watching) ∧
      e'.database.units.toList = e.database.units.toList ++ [l] := by
  have hunits : (e.database.addUnit l).units.toList = e.database.units.toList ++ [l] := by
    simp [Database.addUnit]
  -- the fact is noted before it is assigned
  have hf₁ : Fit { e with database := e.database.addUnit l } R :=
    { hf with
      units := fun w hw m hm => by
        rcases List.mem_append.1 (hunits ▸ hm) with hm | hm
        · exact hf.units w hw m hm
        · exact List.mem_singleton.1 hm ▸ hR w hw
      listed := ⟨hf.listed.nodup, hf.listed.live, hf.listed.issued, hf.listed.given,
        hf.listed.learnts⟩ }
  obtain ⟨hr, ha, -, hw⟩ := reaches_of_assign hf₁ (by simp) (fun _ => hR) hl
  have hdb : e'.database = e.database.addUnit l := by
    simp only [assign, bind_eq_ok, pure_eq_ok] at hl
    obtain ⟨t, -, rfl⟩ := hl
    rfl
  have hx := ha.extends hf.sane.trail
  have hnoted : e.Evolves { e with database := e.database.addUnit l } :=
    .of_grown rfl (Nat.le_refl _) ⟨List.prefix_rfl, ⟨[l], hunits.symm⟩, Nat.le_refl _,
      fun _ _ c hc => ⟨c, hc, .refl c⟩, fun _ c hc _ => ⟨c, hc, .refl c⟩⟩
      fun _ hl hlev => ⟨hl, hlev⟩
  refine ⟨⟨hr.fit, hnoted.trans hr.evolves, hr.varCount, hr.decides, fun hp m hm => ?_⟩, ha,
    hw _, hdb ▸ hunits⟩
  rw [hdb, hunits] at hm
  rcases List.mem_append.1 hm with hm | hm
  · obtain ⟨hmt, hlev⟩ := hp m hm
    exact ⟨hx.mem hmt, (hx.levelOf hmt).trans hlev⟩
  · obtain rfl := List.mem_singleton.1 hm
    exact ⟨ha.mem_iff.2 (Or.inr rfl), ha.levelOf_self.trans hground⟩

/-- A clause of one literal becomes a fact. -/
theorem learn_singleton (e : Engine) (l : Lit) :
    e.learn l #[l] = { e with database := e.database.addUnit l }.assign l none := rfl

/-! ## Learnt clauses -/

/-- A clause that forces its first literal on the current level, to which the second one
belongs. -/
structure Forcing (t : Trail) (l : Lit) (lits : List Lit) : Prop where
  above : 0 < t.level
  two_le : 2 ≤ lits.length
  distinct : (lits.map Lit.var).Nodup
  first : lits.head? = some l
  known : l.var.index < t.varCount
  tail : ∀ a ∈ lits.tail, a.neg ∈ t
  second : ∃ a, lits[1]? = some a ∧ t.levelOf a.var = t.level

/-- A clause that forces its first literal is well formed. -/
theorem Forcing.wellFormed {t : Trail} {kind : Kind} {lits : Array Lit}
    (hfc : Forcing t l lits.toList) (hv : t.Valid) (hk : ∀ k, kind ≠ .atMost k) :
    (⟨kind, lits⟩ : Constraint).WellFormed t.varCount where
  distinct := hfc.distinct
  known a ha := by
    obtain ⟨ls, hls⟩ := List.head?_eq_some_iff.1 hfc.first
    have htail := hfc.tail
    simp only [hls] at ha htail
    rcases List.mem_cons.1 ha with rfl | ha
    · exact hfc.known
    · exact hv.lt_varCount (l := a.neg) (htail a ha)
  two_le := by simpa [Constraint.size] using hfc.two_le
  bounds k hk' := absurd hk' (hk k)

/-- The first two literals of a forcing clause are of the current level once the first is true. -/
theorem Forcing.levelOf_key {t t' : Trail} {c : Constraint} {key : Lit}
    (hfc : Forcing t l c.lits.toList) (hv : t.Valid) (ha : t.Assigned l (some h) t')
    (hat : c.isAtMost = false) (hkey : key ∈ c.keys) : t'.levelOf key.var = t.level := by
  have hkey' := (Constraint.mem_keys_clause hat).1 hkey
  obtain ⟨ls, hls⟩ := List.head?_eq_some_iff.1 hfc.first
  obtain ⟨b, hb, hlev⟩ := hfc.second
  have htail := hfc.tail
  rw [Constraint.watchedLits, Constraint.watchers_clause hat, hls] at hkey'
  rw [hls] at hb htail
  cases ls with
  | nil => simp at hb
  | cons b' ls =>
      obtain rfl : b' = b := by simpa using hb
      have hcases : key.neg = l ∨ key.neg = b' := by simpa using hkey'
      rcases hcases with hk | hk
      · rw [← Lit.neg_var, hk, ha.levelOf_self]
      · rw [← Lit.neg_var, hk, ← hlev]
        exact (ha.extends hv).levelOf (l := b'.neg) (htail b' (by simp))

/-- What storing a learnt clause does. Nothing is forgotten but the clause itself. -/
structure Learns (R : World → Prop) (e e' : Engine) (h : Handle) (lits : Array Lit) : Prop where
  reaches : e.Reaches R e'
  trail : e'.trail = e.trail
  stored : ∃ c, e'.store.get? h = some c ∧ c.isAtMost = false ∧ c.lits = lits
  kept : ∀ a c, e.store.get? a = some c → ∃ c', e'.store.get? a = some c' ∧ c.Same c'
  watching : ∀ due, e.network.Watching due → e'.network.Watching fun a key => due a key ∨ a = h

/-- A clause that holds in the worlds of interest can be learnt. -/
theorem learns_of_learn {lits : Array Lit} {db : Database} {store : Store} (hf : e.Fit R)
    (hwf : (⟨.learnt 0.0 e.database.nextSerial, lits⟩ : Constraint).WellFormed e.trail.varCount)
    (hR : ∀ w, R w → w.clauseHolds lits.toList = true)
    (hlearn : e.database.learn e.store lits = .ok (h, db, store))
    (hwatch : { e with database := db, network := { e.network with store } }.watch h = .ok e') :
    Learns R e e' h lits := by
  obtain ⟨c, index, hc, hindex, rfl⟩ := watch_eq_ok hwatch
  obtain ⟨store₁, ha, hrel, hlisted, hgiven, hlearnts, hunits, hserial⟩ :=
    Database.added_of_learn hf.listed hlearn
  -- the clause is stored without activity first and bumped then
  set c₀ : Constraint := ⟨.learnt 0.0 e.database.nextSerial, lits⟩ with hc₀
  have hat₀ : c₀.isAtMost = false := rfl
  obtain ⟨hsame, hlits, -, hst⟩ := stores_of_relabels (n := e.network) ha hrel hc hat₀ hwf hindex
  have hat : c.isAtMost = false := hsame.isAtMost_eq.trans hat₀
  have hholds : ∀ w, R w → c₀.holds w = true := fun w hw => by
    rw [Constraint.holds_of_not_isAtMost hat₀]
    exact hR w hw
  refine ⟨⟨{ hf with
      sane := (hf.sane.stores hst hwf).relabels hrel
      sound := (hf.sound.stores hst hholds).relabels hrel
      units := fun w hw => hunits ▸ hf.units w hw
      listed := hlisted }, ?_, rfl, rfl, fun hp m hm => hp m (hunits ▸ hm)⟩, rfl,
    ⟨c, hc, hat, hlits⟩, fun a d hd => ?_, fun _ hw => (hw.stores hst).relabels hrel⟩
  · exact .of_grown rfl (Nat.le_refl _) (.of_added hf.listed ha hrel
      (fun k hk => Nat.le_of_eq (Option.some.inj hk)) (hgiven ▸ List.prefix_rfl) hunits
      (by simp [hserial])) fun _ hl hlev => ⟨hl, hlev⟩
  · obtain ⟨d', hd', hk, hl⟩ := hrel.forth a d (hst.get?_old hd)
    exact ⟨d', hd', .of_lits_eq hk hl⟩

/-- A clause is learnt and forces its first literal. -/
theorem reaches_of_learn_clause {lits : Array Lit} (hf : e.Fit R)
    (hfc : Forcing e.trail l lits.toList) (hR : ∀ w, R w → w.clauseHolds lits.toList = true)
    (hl : e.learn l lits = .ok e') :
    e.Reaches R e' ∧ (∃ h, e.trail.Assigned l (some h) e'.trail) ∧
      (∀ due, e.network.Watching due → e'.network.Watching due) ∧
      ∀ a c, e.store.get? a = some c → ∃ c', e'.store.get? a = some c' ∧ c.Same c' := by
  have hsize : lits.size ≠ 1 := by
    have := hfc.two_le
    rw [Array.length_toList] at this
    omega
  simp only [learn, if_neg hsize, bind_eq_ok] at hl
  obtain ⟨⟨h, db, store⟩, hlearn, e₁, hwatch, hassign⟩ := hl
  have hv := hf.sane.trail
  have hk := learns_of_learn hf (hfc.wellFormed hv (by simp)) hR hlearn hwatch
  obtain ⟨c, hc, hat, hlits⟩ := hk.stored
  have htrail : e₁.trail = e.trail := hk.trail
  have hfc' : Forcing e₁.trail l c.lits.toList := by rw [htrail, hlits]; exact hfc
  obtain ⟨hr, ha, hstore, hw⟩ := reaches_of_assign hk.reaches.fit
    (fun t ht a ha => ⟨c, Option.some.inj ha ▸ hc, fun _ => ⟨hfc'.first, hfc'.tail⟩,
      fun k hk => absurd hk (Constraint.kind_ne_atMost hat k)⟩)
    (fun h0 => absurd h0 (Nat.ne_of_gt hfc'.above)) hassign
  refine ⟨hk.reaches.trans hr, ⟨h, htrail ▸ ha⟩, fun due hw₀ => ?_, hstore ▸ hk.kept⟩
  refine (hw _ (hk.watching due hw₀)).mono fun a d hd key hkey _ hdue => hdue.imp_right fun hdue => ?_
  -- both keys are supported by the first literal, which is of the level of the second
  obtain rfl : c = d := Option.some.inj (by
    rw [← hc, ← hd, hdue]
    exact congrArg (fun s => s.get? h) hstore.symm)
  refine ⟨fun _ => ⟨l, List.mem_of_mem_head? hfc'.first, ha.mem_iff.2 (Or.inr rfl), ?_⟩,
    fun hat' => ?_⟩
  · rw [hfc'.levelOf_key hk.reaches.fit.sane.trail ha hat hkey]
    exact Nat.le_of_eq ha.levelOf_self
  · rw [hat] at hat'
    cases hat'

end Engine

end CardSat
