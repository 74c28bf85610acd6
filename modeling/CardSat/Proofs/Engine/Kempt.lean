import CardSat.Proofs.Analysis.Walk
import CardSat.Proofs.Database.Forgetting
import CardSat.Proofs.Engine.Storing
import CardSat.Proofs.Engine.Thinning
import CardSat.Proofs.Network.Traced
import CardSat.Proofs.Network.Visits

set_option autoImplicit false

/-! # What no use of an engine disturbs

Callers who direct a search may use it in ways that make reasons wrong and analyses pointless. An
engine that is `Kempt` is one about which all is true that is true all the same: constraints are
well formed and watched exactly, freed ones are swept up, and stray literals are rare.

`Engine.Upholds` is what every step does, whatever it is for. Steps that do not learn also leave
what may be learnt as it is (`Engine.Spares`).

The parameter `had` is a set of handles and literals. It bounds the blockers that a watcher may
have: they are literals that its constraint has now, or had at some time. A call that only reads
constraints is good for any such set, and simplifying, which strips clauses of literals, is good for
those that contain the literals of every constraint it may come to.
-/

namespace CardSat

namespace Engine

variable {had had' : Handle → Lit → Prop} {e e' e'' : Engine} {l : Lit} {b r : Nat}
  {lits : List Lit}

/-! ## The invariant -/

/-- What is true of an engine however it was used. -/
structure Kempt (had : Handle → Lit → Prop) (e : Engine) : Prop where
  aligned : e.network.Aligned e.dead e.network.index.line
  tended : e.network.Tended
  listed : e.database.Listed e.store
  reasoned : e.network.Reasoned
  layered : e.network.Layered
  traced : e.network.Traced had

/-- The trail is valid. -/
theorem Kempt.valid (hk : e.Kempt had) : e.trail.Valid := hk.aligned.trail

/-- A larger set of past literals is allowed. -/
theorem Kempt.mono (hk : e.Kempt had) (hsub : ∀ h b, had h b → had' h b) : e.Kempt had' :=
  { hk with traced := hk.traced.mono hsub }

/-- What every step does, whatever it is for. -/
structure Upholds (had : Handle → Lit → Prop) (e e' : Engine) : Prop where
  kempt : e'.Kempt had
  settings : e'.settings = e.settings
  varCount : e.trail.varCount ≤ e'.trail.varCount
  grown : e.settings.incremental = true → e.Grown e'

/-- A step after which a clause can be learnt still. -/
structure Spares (had : Handle → Lit → Prop) (e e' : Engine) : Prop extends
    Upholds had e e' where
  learnable : ∀ {r lits}, e.network.Learnable r lits → e'.network.Learnable r lits

/-- No step. -/
theorem Upholds.refl (hk : e.Kempt had) : e.Upholds had e :=
  ⟨hk, rfl, Nat.le_refl _, fun _ => .refl e⟩

/-- One step after another. -/
theorem Upholds.trans (h : e.Upholds had e') (h' : e'.Upholds had e'') : e.Upholds had e'' where
  kempt := h'.kempt
  settings := h'.settings.trans h.settings
  varCount := Nat.le_trans h.varCount h'.varCount
  grown hi := (h.grown hi).trans (h'.grown (h.settings ▸ hi))

/-- No step. -/
theorem Spares.refl (hk : e.Kempt had) : e.Spares had e := ⟨.refl hk, id⟩

/-- One step after another. -/
theorem Spares.trans (h : e.Spares had e') (h' : e'.Spares had e'') : e.Spares had e'' :=
  ⟨h.toUpholds.trans h'.toUpholds, fun hl => h'.learnable (h.learnable hl)⟩

/-- At the ground level a clause is learnable if it is well formed. -/
theorem learnable_of_ground {n : Network} (hv : n.trail.Valid) (hground : n.trail.level = 0)
    (h2 : 2 ≤ lits.length) (hnd : (lits.map Lit.var).Nodup)
    (hknown : ∀ l ∈ lits, l.var.index < n.trail.varCount) : n.Learnable r lits :=
  ⟨h2, hnd, hknown, Network.fitting_of_ground hv hground⟩

/-- A step that ends at the ground level. -/
theorem Upholds.spares (h : e.Upholds had e') (hground : e'.trail.level = 0) : e.Spares had e' :=
  ⟨h, fun hl => learnable_of_ground h.kempt.valid hground hl.two_le hl.distinct fun l hll =>
    Nat.lt_of_lt_of_le (hl.known l hll) h.varCount⟩

/-! ## Kinds of steps -/

/-- A step that is about the network only, where reasons that are new explain their literals. -/
theorem Spares.of_network (hk : e.Kempt had) {n : Network}
    (hc : e.network.Continues n ∧ Network.ExplainsNew e.network n)
    (ha : n.Aligned e.dead n.index.line) (ht : n.Tended) (htr : n.Traced had)
    (hstore : e.store.Same n.store) (hcount : n.trail.varCount = e.trail.varCount) :
    e.Spares had { e with network := n } := by
  obtain ⟨hc, hnew⟩ := hc
  have hv := ha.trail
  refine ⟨⟨⟨ha.dead_mono (fun l ⟨hi, hl, hlev⟩ => ?_) (fun l (hl : dead _ l) => hl.2.1), ht,
    hk.listed.same (.refl _) hstore, hc.reasoned hv hk.reasoned hnew,
    hc.layered hv hk.layered hk.reasoned hnew, htr⟩, rfl, Nat.le_of_eq hcount.symm,
    fun _ => .of_same (.refl _) hstore⟩, fun hl => ⟨hl.two_le, hl.distinct,
      fun l hll => hcount.symm ▸ hl.known l hll, hc.fitting hv hk.reasoned hnew hl.fitting⟩⟩
  -- what is dead stays on the ground level
  have hl' := hc.trail.stays l.neg hl (Nat.le_trans (Nat.le_of_eq hlev) (Nat.zero_le _))
  exact ⟨hi, hl', (hc.trail.level l.neg hl hl').trans hlev⟩

/-- A step that leaves the network and the lists alone. -/
theorem Spares.bookkeeping (hk : e.Kempt had) (hnetwork : e'.network = e.network)
    (hset : e'.settings = e.settings) (hdb : e.database.SameLists e'.database) :
    e.Spares had e' := by
  have hdead : e'.dead = e.dead := by
    funext l
    simp only [dead, hset, trail, hnetwork]
  have hstore : e.store.Same e'.store := by
    rw [store, store, hnetwork]
    exact .refl _
  refine ⟨⟨⟨?_, ?_, hk.listed.same hdb hstore, ?_, ?_, ?_⟩, hset, ?_, fun _ => .of_same hdb hstore⟩,
    fun hl => ?_⟩
  · rw [hdead, hnetwork]
    exact hk.aligned
  · exact hnetwork ▸ hk.tended
  · exact hnetwork ▸ hk.reasoned
  · exact hnetwork ▸ hk.layered
  · exact hnetwork ▸ hk.traced
  · exact Nat.le_of_eq (by rw [trail, trail, hnetwork])
  · exact hnetwork ▸ hl

/-- Counters, activities and events may be changed besides. -/
theorem Upholds.noted (h : e.Upholds had e') (hnetwork : e''.network = e'.network)
    (hset : e''.settings = e'.settings) (hdb : e'.database.SameLists e''.database) :
    e.Upholds had e'' :=
  h.trans (Spares.bookkeeping h.kempt hnetwork hset hdb).toUpholds

/-- The same where nothing is learnt. -/
theorem Spares.noted (h : e.Spares had e') (hnetwork : e''.network = e'.network)
    (hset : e''.settings = e'.settings) (hdb : e'.database.SameLists e''.database) :
    e.Spares had e'' :=
  h.trans (.bookkeeping h.kempt hnetwork hset hdb)

/-! ## Propagating and deciding -/

/-- Propagation keeps an engine kempt, and a constraint it stops at is violated. -/
theorem spares_of_propagate {failed : Option Handle} (hk : e.Kempt had)
    (h : e.propagate = .ok (failed, e')) : e.Spares had e' ∧ e'.Idle ∧
      e'.trail.level = e.trail.level ∧ ∀ a, failed = some a → e'.network.Conflict a := by
  obtain ⟨n, hn, rfl⟩ := propagate_eq_ok.1 h
  have hs := Network.spread_of_propagate hk.aligned hn
  refine ⟨.of_network hk hs.continues hs.aligned
    (Network.tended_of_propagate hk.aligned hk.tended hn)
    (Network.traced_of_propagate hk.traced hn) hs.advances.store hs.advances.trail.varCount,
    hs.idle, hs.advances.trail.level_eq, hs.conflict⟩

/-- Going back keeps an engine kempt. -/
theorem spares_of_cancelUntil (hk : e.Kempt had) (h : e.cancelUntil b = .ok e') :
    e.Spares had e' := by
  obtain ⟨d, -, rfl⟩ := cancelUntil_eq_ok.1 h
  have hcount := Trail.varCount_rewind e.trail b
  have hn : e.Spares had { e with network := { e.network with trail := (e.trail.rewind b).2 } } :=
    .of_network hk (Network.continues_rewind hk.valid b)
      (hk.aligned.rewind b fun l (hl : e.dead l) => hl.2.2) (hk.tended.of_trail hcount) hk.traced
      (.refl _) hcount
  exact hn.noted rfl rfl (.refl _)

/-- Going back, or staying where nothing waits, leaves nothing to propagate. -/
theorem Kempt.idle_of_cancelUntil (hk : e.Kempt had) (h : e.cancelUntil b = .ok e')
    (hor : e.Idle ∨ b < e.trail.level) : e'.Idle := by
  rcases hor with hidle | hb
  · exact Engine.idle_of_cancelUntil hk.valid hidle h
  · rw [Idle, trail_of_cancelUntil h]
    exact Trail.head_rewind_of_lt hk.valid hk.aligned.queued hb

/-- So does opening a level when nothing is waiting. -/
theorem spares_of_openLevel (hk : e.Kempt had) (hidle : e.Idle) :
    e.Spares had { e with network := { e.network with trail := e.trail.openLevel } } :=
  .of_network hk
    (Network.continues_of_same rfl (fun _ => rfl) (fun _ => Or.inl rfl) (Nat.le_refl _)
      fun _ c' _ hget => ⟨c', hget, .refl _, rfl⟩)
    (hk.aligned.openLevel hidle) (hk.tended.of_trail rfl) hk.traced (.refl _) rfl

/-- So does assigning a literal that has no reason. -/
theorem spares_of_assign (hk : e.Kempt had) (h : e.assign l none = .ok e') :
    e.Spares had e' ∧ e'.trail.level = e.trail.level := by
  obtain ⟨t, ht, rfl⟩ := assign_eq_ok.1 h
  have ha := Trail.assigned_of_assign ht
  exact ⟨.of_network hk (Network.continues_of_assign hk.valid ha) (hk.aligned.assign ht)
    (hk.tended.of_trail ha.varCount) hk.traced (.refl _) ha.varCount, ha.level_eq⟩

/-- So does a decision. -/
theorem spares_of_decideLit (hk : e.Kempt had) (hidle : e.Idle) (h : e.decideLit l = .ok e') :
    e.Spares had e' := by
  have hopen := spares_of_openLevel hk hidle
  exact hopen.trans (spares_of_assign hopen.kempt (assign_of_decideLit h)).1

/-! ## Conflicts -/

/-- The analysis of a conflict keeps an engine kempt, and the clause it finds may be learnt. -/
theorem spares_of_analyze {failed : Handle} {lesson : Lesson} (hk : e.Kempt had)
    (hconf : e.network.Conflict failed) (h : e.analyze failed = .ok (lesson, e')) :
    e.Spares had e' ∧ e'.trail = e.trail ∧
      ∀ r lits, lesson = .clause r lits →
        e'.network.Learnable r lits.toList ∧ r < e'.trail.level := by
  obtain ⟨x, a, d, db, store, hx, -, hdb, hrel, rfl, rfl⟩ := analyze_eq_ok h
  have hn : e.Spares had { e with network := { e.network with store } } :=
    .of_network hk
      (Network.continues_of_same rfl (fun _ => rfl) (fun _ => Or.inl rfl)
        (Nat.le_of_eq hrel.size.symm) fun h c' _ hget => by
          obtain ⟨c, hc, hkind, hlits⟩ := hrel.back h c' hget
          exact ⟨c, hc, .of_lits_eq hkind hlits, hlits⟩)
      (hk.aligned.relabels hrel) (hk.tended.same hrel.same) (hk.traced.relabels hrel) hrel.same rfl
  have he : e.Spares had { e with
      network := { e.network with store }, database := db, decisions := d, analysis := a } :=
    hn.noted rfl rfl hdb
  refine ⟨he, rfl, fun r lits hlesson => ?_⟩
  obtain ⟨hl, hlt⟩ := Analysis.learnable_of_analyze hk.aligned hk.layered hk.reasoned hconf hx hlesson
  exact ⟨he.learnable hl, hlt⟩

/-- A fact is noted and becomes true. -/
theorem upholds_of_addFact (hk : e.Kempt had)
    (h : assign { e with database := e.database.addUnit l } l none = .ok e') :
    e.Upholds had e' ∧ e'.trail.level = e.trail.level := by
  have hnoted : e.Upholds had { e with database := e.database.addUnit l } := by
    refine ⟨⟨hk.aligned, hk.tended, ⟨hk.listed.nodup, hk.listed.live, hk.listed.issued,
      hk.listed.given, hk.listed.learnts⟩, hk.reasoned, hk.layered, hk.traced⟩, rfl, Nat.le_refl _,
      fun _ => ⟨List.prefix_rfl, ⟨[l], ?_⟩, Nat.le_refl _, fun _ _ c hc => ⟨c, hc, .refl c⟩,
        fun _ c hc _ => ⟨c, hc, .refl c⟩⟩⟩
    simp [Database.addUnit]
  obtain ⟨ha, hlevel⟩ := spares_of_assign hnoted.kempt h
  exact ⟨hnoted.trans ha.toUpholds, hlevel⟩

/-! ## Storing constraints -/

/-- The network in which a constraint was put on watch. -/
theorem Kempt.stores {n' : Network} {h : Handle} {c : Constraint} (hk : e.Kempt had)
    (hst : e.network.Stores n' h c) (hwf : c.WellFormed e.trail.varCount)
    (hw : e.network.index.watch c h = .ok n'.index) :
    n'.Aligned e.dead n'.index.line ∧ n'.Tended ∧ n'.Traced had :=
  ⟨hk.aligned.stores hst hwf, hk.tended.stores hst (WatchIndex.sameMarks_watch hw),
    hk.traced.stores hst hk.aligned.lines fun _ _ hx => WatchIndex.mem_line_of_watch hw hx⟩

/-- At the ground level a given constraint is stored and put on watch. -/
theorem upholds_of_addGiven {kind : Kind} {as : Array Lit} {a : Handle} {db : Database}
    {store : Store} (hk : e.Kempt had) (hground : e.trail.level = 0)
    (hkind : ∀ x k, kind ≠ .learnt x k)
    (hwf : (⟨kind, as⟩ : Constraint).WellFormed e.trail.varCount)
    (hadd : e.database.addGiven e.store kind as = .ok (a, db, store))
    (hw : { e with database := db, network := { e.network with store } }.watch a = .ok e') :
    e.Upholds had e' ∧ e'.trail = e.trail := by
  obtain ⟨c, index, hc, hindex, rfl⟩ := watch_eq_ok hw
  obtain ⟨ha, hl, hgiven, -, hunits, hserial⟩ := Database.added_of_addGiven hkind hk.listed hadd
  have hget : store.get? a = some ⟨kind, as⟩ := by rw [ha.get?, if_pos rfl]
  obtain rfl := Option.some.inj (hc.symm.trans hget)
  have hst := stores_of_added (n := e.network) ha hwf hindex
  obtain ⟨hal, ht, htr⟩ := hk.stores hst hwf hindex
  refine ⟨⟨⟨hal, ht, hl, Network.reasoned_of_ground hal.trail hground,
    Network.layered_of_ground hal.trail hground, htr⟩, rfl, Nat.le_refl _, fun _ =>
    .of_added hk.listed ha (.refl _) (fun k hks => ?_) ?_ hunits (Nat.le_of_eq hserial.symm)⟩, rfl⟩
  · -- a given constraint has no serial number
    unfold Constraint.serial? at hks
    split at hks
    next x k hk' => exact absurd hk' (hkind x k)
    next => cases hks
  · show e.database.given.toList <+: db.given.toList
    simp [hgiven]

/-- A clause that may be learnt is stored, put on watch and made the reason of its first literal. -/
theorem upholds_of_learn {as : Array Lit} (hk : e.Kempt had) (hfirst : as[0]? = some l)
    (hlearn : as.size ≠ 1 → e.network.Learnable e.trail.level as.toList)
    (h : e.learn l as = .ok e') : e.Upholds had e' ∧ e'.trail.level = e.trail.level := by
  rw [learn] at h
  split at h
  next => exact upholds_of_addFact hk h
  next hsize =>
      simp only [bind_eq_ok] at h
      obtain ⟨⟨a, db, store⟩, hadd, e₁, hwatch, hassign⟩ := h
      obtain ⟨c, index, hc, hindex, rfl⟩ := watch_eq_ok hwatch
      obtain ⟨store₁, ha, hrel, hl, hgiven, -, hunits, hserial⟩ :=
        Database.added_of_learn hk.listed hadd
      obtain ⟨h2, hnd, hknown, hfit⟩ := hlearn hsize
      have hat₁ : (⟨.learnt 0.0 e.database.nextSerial, as⟩ : Constraint).isAtMost = false := rfl
      have hwf : (⟨.learnt 0.0 e.database.nextSerial, as⟩ : Constraint).WellFormed
          e.trail.varCount := ⟨hnd, hknown, by simpa [Constraint.size] using h2, by simp⟩
      obtain ⟨as', hcons⟩ : ∃ as', as.toList = l :: as' := by
        rw [← Array.getElem?_toList, ← List.head?_eq_getElem?] at hfirst
        exact List.head?_eq_some_iff.1 hfirst
      rw [hcons, List.tail_cons] at hfit
      -- the network before activities were scaled
      obtain ⟨-, -, hindex₁, hst⟩ :=
        stores_of_relabels (n := e.network) ha hrel hc hat₁ hwf hindex
      obtain ⟨hal, ht, htr⟩ := hk.stores hst hwf hindex₁
      obtain ⟨t, htassign, rfl⟩ := assign_eq_ok.1 hassign
      have hta := Trail.assigned_of_assign htassign
      have hle := hst.learns hk.valid hat₁ hcons hta
      have hv' := hta.valid hk.valid
      -- scaling activities changes nothing of it
      have hrelabel : Network.Continues { e.network with store := store₁, index, trail := t }
            { e.network with store, index, trail := t } ∧
          Network.ExplainsNew { e.network with store := store₁, index, trail := t }
            { e.network with store, index, trail := t } :=
        Network.continues_of_same rfl (fun _ => rfl) (fun _ => Or.inl rfl)
          (Nat.le_of_eq hrel.size.symm) fun h c' _ hget => by
            obtain ⟨c, hc, hkind, hlits⟩ := hrel.back h c' hget
            exact ⟨c, hc, .of_lits_eq hkind hlits, hlits⟩
      have hreasoned := hle.reasoned hk.valid hk.reasoned
      have hx := hta.extends hk.valid
      refine ⟨⟨⟨?_, ?_, hl, hrelabel.1.reasoned hv' hreasoned hrelabel.2,
        hrelabel.1.layered hv' (hle.layered hk.valid hk.layered hk.reasoned hfit) hreasoned
          hrelabel.2, htr.relabels hrel⟩, rfl, Nat.le_of_eq hta.varCount.symm, fun _ =>
        .of_added hk.listed ha hrel (fun k hks => Nat.le_of_eq (Option.some.inj hks))
          (hgiven ▸ List.prefix_rfl) hunits ?_⟩, hta.level_eq⟩
      · have hal' := (hal.relabels hrel).assign (r := some a) htassign
        exact hal'.dead_mono
          (fun m (hm : dead _ m) => ⟨hm.1, hx.mem hm.2.1, (hx.levelOf hm.2.1).trans hm.2.2⟩)
          fun m (hm : dead _ m) => hm.2.1
      · exact (ht.same hrel.same).of_trail hta.varCount
      · show e.database.nextSerial ≤ db.nextSerial
        rw [hserial]
        exact Nat.le_succ _

/-! ## Keeping the constraints few -/

/-- What a sweep leaves. Literals of which clauses are stripped have to be remembered. -/
theorem kempt_of_afterSweep {strengthened : Prop} {gone : Handle → Constraint → Prop}
    {db : Database} {s : Database.Sweep} (hk : e.Kempt had)
    (hcl : Database.Clearance e.network e.dead strengthened gone db s)
    (hst : strengthened → e.trail.level = 0 ∧
      ∀ h c b, e.store.get? h = some c → b ∈ c.lits.toList → had h b)
    (h : e.afterSweep db s = .ok e') : e'.Kempt had ∧ e.trail.Cleared e'.trail := by
  have hth := thinned_of_afterSweep hcl.thinned h
  obtain ⟨index, hfold, hline, rfl⟩ := afterSweep_eq_ok h
  have hc : e.trail.Cleared s.trail := hth.trail
  have ha := hcl.aligned.withIndex index
  rw [← hline] at ha
  have hlayers : Network.Reasoned { e.network with store := s.store, trail := s.trail, index } ∧
      Network.Layered { e.network with store := s.store, trail := s.trail, index } := by
    -- clauses lose literals at the ground level only, where nothing is stray
    by_cases hyes : strengthened
    · have hground : s.trail.level = 0 := hc.level_eq.trans (hst hyes).1
      exact ⟨Network.reasoned_of_ground ha.trail hground, Network.layered_of_ground ha.trail hground⟩
    · have hcont : e.network.Continues { e.network with store := s.store, trail := s.trail, index } ∧
          Network.ExplainsNew e.network
            { e.network with store := s.store, trail := s.trail, index } :=
        Network.continues_of_same hc.lits hc.level hc.reason (Nat.le_of_eq hth.size.symm)
          fun h c' _ hget => by
            obtain ⟨c, hget₀, -, -, -, heq⟩ := hth.left h c' hget
            exact ⟨c, hget₀, heq hyes ▸ .refl _, by rw [heq hyes]⟩
      exact ⟨hcont.1.reasoned ha.trail hk.reasoned hcont.2,
        hcont.1.layered ha.trail hk.layered hk.reasoned hcont.2⟩
  refine ⟨⟨ha.dead_mono
    (fun l (hl : dead _ l) => ⟨hl.1, hc.mem_iff.2 hl.2.1, (hc.level l.var).trans hl.2.2⟩)
    fun l (hl : dead _ l) => hl.2.1, ?_, hcl.listed, hlayers.1, hlayers.2,
    hk.traced.thinned hth fun hyes => (hst hyes).2⟩, hc⟩
  exact hk.tended.markStale hk.aligned.lines hc.varCount
    (fun a c hac hno => ⟨c, hcl.accounted a c hac hno, rfl⟩) hfold

/-- Taking in what a sweep has left keeps an engine kempt. -/
theorem upholds_of_afterSweep {strengthened : Prop} {gone : Handle → Constraint → Prop}
    {db : Database} {s : Database.Sweep} (hk : e.Kempt had)
    (hcl : Database.Clearance e.network e.dead strengthened gone db s)
    (hst : strengthened → e.trail.level = 0 ∧
      ∀ h c b, e.store.get? h = some c → b ∈ c.lits.toList → had h b)
    (hkeep : e.settings.incremental = true → ¬ strengthened ∧
      (∀ h c, gone h c → h ∈ e.database.learnts.toList) ∧ db.given = e.database.given)
    (hunits : db.units = e.database.units) (hserial : db.nextSerial = e.database.nextSerial)
    (h : e.afterSweep db s = .ok e') : e.Upholds had e' ∧ e.trail.Cleared e'.trail := by
  obtain ⟨hk', hc⟩ := kempt_of_afterSweep hk hcl hst h
  have hth := thinned_of_afterSweep hcl.thinned h
  obtain ⟨index, -, -, rfl⟩ := afterSweep_eq_ok h
  refine ⟨⟨hk', rfl, Nat.le_of_eq hc.varCount.symm, fun hi => ?_⟩, hc⟩
  obtain ⟨hno, hgone, hgiven⟩ := hkeep hi
  exact grown_of_removal hk.listed hth hno hgone hgiven hunits hserial

/-- Giving up learnt clauses keeps an engine kempt. -/
theorem upholds_of_reduce (hk : e.Kempt had) (h : e.reduce = .ok e') :
    e.Upholds had e' ∧ e.trail.Cleared e'.trail := by
  rcases reduce_eq_ok h with rfl | ⟨db, s, e₁, hred, hsweep, rfl⟩
  · exact ⟨.refl hk, .refl _⟩
  · obtain ⟨hcl, hunits, hserial, hgiven⟩ :=
      Database.clearance_of_reduce hk.aligned hk.listed hred
    obtain ⟨hu, hc⟩ := upholds_of_afterSweep hk hcl False.elim
      (fun _ => ⟨id, fun _ _ => id, hgiven⟩) hunits hserial hsweep
    exact ⟨hu.noted rfl rfl (.refl _), hc⟩

/-- Simplifying keeps an engine kempt if the blockers may be literals that the clauses have lost. -/
theorem upholds_of_simplify (hk : e.Kempt had)
    (hpast : ∀ h c b, e.store.get? h = some c → b ∈ c.lits.toList → had h b)
    (h : e.simplify = .ok e') : e.Upholds had e' ∧ e.trail.Cleared e'.trail := by
  rcases simplify_eq_ok h with rfl | ⟨hlevel, db, s, e₁, d, hrs, hsweep, -, rfl⟩
  · exact ⟨.refl hk, .refl _⟩
  · obtain ⟨hcl, hunits, hserial, hgiven⟩ := Database.clearance_of_removeSatisfied hk.aligned
      hk.listed (fun hi _ => dead_of_ground hk.valid hlevel hi) hrs
    obtain ⟨hu, hc⟩ := upholds_of_afterSweep hk hcl (fun _ => ⟨hlevel, hpast⟩) (fun hi => by
      have hno : ¬ (!e.settings.incremental) = true := by rw [hi]; exact Bool.false_ne_true
      exact ⟨hno, fun _ _ hg => hg.resolve_right hno, hgiven (Bool.not_eq_true _ ▸ hno)⟩)
      hunits hserial hsweep
    exact ⟨hu.noted rfl rfl (.refl _), hc⟩

/-! ## Variables -/

/-- A new variable keeps an engine kempt. -/
theorem spares_of_newVar {v : Var} {negated decision : Bool} (hk : e.Kempt had)
    (h : e.newVar negated decision = .ok (v, e')) :
    e.Spares had e' ∧ e'.trail.level = e.trail.level ∧ (e.Idle → e'.Idle) := by
  simp only [newVar, bind_eq_ok, pure_eq_ok, Prod.mk.injEq] at h
  obtain ⟨⟨u, t⟩, ht, d, -, rfl, rfl⟩ := h
  obtain ⟨rfl, -, rfl⟩ := Trail.newVar_eq_ok ht
  have hlev : ∀ x, Trail.levelOf { e.network.trail with cells := e.network.trail.cells.push {} } x =
      e.trail.levelOf x := fun x => by rw [Trail.levelOf, Trail.cellOf_push, Trail.levelOf]
  have hpush : e.network.trail.varCount + 1 =
      Trail.varCount { e.network.trail with cells := e.network.trail.cells.push {} } := by
    simp [Trail.varCount]
  have hle := Nat.le_trans (Nat.le_succ _) (Nat.le_of_eq hpush)
  -- the new variable has no value, so the trail reads as before
  have hcont : e.network.Continues { e.network with
        trail := { e.network.trail with cells := e.network.trail.cells.push {} }
        index := e.network.index.addVar ⟨e.network.trail.varCount⟩ } ∧
      Network.ExplainsNew e.network _ :=
    Network.continues_of_same rfl hlev
      (fun x => Or.inl (by rw [Trail.reasonOf, Trail.cellOf_push, Trail.reasonOf])) (Nat.le_refl _)
      fun _ c' _ hget => ⟨c', hget, .refl _, rfl⟩
  have ha := hk.aligned.newVar ⟨e.network.trail.varCount⟩
  refine ⟨⟨⟨⟨ha.dead_mono (fun l hl => ⟨hl.1, hl.2.1, (hlev l.var).trans hl.2.2⟩)
    fun l (hl : dead _ l) => hl.2.1, hk.tended.addVar hpush.symm, hk.listed,
    hcont.1.reasoned ha.trail hk.reasoned hcont.2,
    hcont.1.layered ha.trail hk.layered hk.reasoned hcont.2, fun l x hx => ?_⟩, rfl, hle, fun _ =>
    ⟨List.prefix_rfl, List.prefix_rfl, Nat.le_refl _, fun _ _ c hc => ⟨c, hc, .refl c⟩,
      fun _ c hc _ => ⟨c, hc, .refl c⟩⟩⟩, fun hl => ⟨hl.two_le, hl.distinct, fun l hll =>
      Nat.lt_of_lt_of_le (hl.known l hll) hle, hcont.1.fitting ha.trail hk.reasoned hcont.2
        hl.fitting⟩⟩, rfl, id⟩
  simp only [WatchIndex.line_addVar] at hx
  exact hk.traced l x hx

end Engine

end CardSat
