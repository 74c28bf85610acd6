import CardSat.Proofs.Network.Assigning
import CardSat.Proofs.Network.Resizing
import CardSat.Proofs.Network.Storing
import CardSat.Proofs.Propagation.Forgetting

set_option autoImplicit false

/-! # Networks whose reasons are not relied on

A caller who learns a pending clause where it does not force its first literal makes this literal
true for a reason that does not explain it. Everything else that is known of a sane network is still
true then. A network is `Aligned` if it is sane once some reasons are forgotten, and the steps that
keep a network sane keep it aligned, whatever reasons they give.

Of a propagation (`Network.Spread`) it is known besides that what it adds to the trail has a reason
that explains it.

For the steps other than propagation the proof is always the same: the forgetful trail makes the
step as well, and there it is known what the step does. Propagation is the step for which this has
to be proved, since it reads the trail all the time (`Network.alike_of_propagate`).
-/

namespace CardSat

namespace Trail.Cleared

variable {t u : Trail}

/-- The invariant of a trail is not about reasons. -/
theorem valid_of (h : t.Cleared u) (hv : u.Valid) : t.Valid where
  distinct := h.lits ▸ hv.distinct
  truth_yes l := by rw [← h.truth, hv.truth_yes, h.mem_iff]
  level_eq i l hi := by
    rw [← h.level, ← h.starts]
    exact hv.level_eq i l (h.lits.symm ▸ hi)
  sorted := h.starts ▸ hv.sorted
  starts_le := by
    rw [← h.starts, ← h.lits]
    exact hv.starts_le
  head_le := by
    rw [← h.head, ← h.lits]
    exact hv.head_le

/-- Where the queue stands is not about reasons. -/
theorem queued_of (h : t.Cleared u) (hq : u.Queued) : t.Queued := by
  rwa [Queued, h.levelStart, h.level_eq, h.head] at hq

/-- Going back forgets no more reasons. -/
theorem rewind (h : t.Cleared u) (b : Nat) : (t.rewind b).2.Cleared (u.rewind b).2 := by
  have hdrop : u.lits.toList.drop (u.levelEnd b) = t.lits.toList.drop (t.levelEnd b) := by
    rw [h.lits, h.levelEnd]
  refine ⟨?_, ?_, ?_, ?_, fun v => ?_, fun v => ?_, fun v => ?_⟩
  · rw [← Array.toList_inj, lits_rewind, lits_rewind, h.lits, h.levelEnd]
  · rw [starts_rewind, starts_rewind, h.starts]
  · rw [head_rewind, head_rewind, h.head, h.levelEnd]
  · rw [varCount_rewind, varCount_rewind, h.varCount]
  · rw [cellOf_rewind, cellOf_rewind, hdrop]
    split
    · rfl
    · exact h.value v
  · rw [levelOf_rewind, levelOf_rewind, h.level]
  · rw [reasonOf, reasonOf, cellOf_rewind, cellOf_rewind, hdrop]
    split
    · exact Or.inr rfl
    · exact h.reason v

/-- A new level forgets no more reasons. -/
theorem openLevel (h : t.Cleared u) : t.openLevel.Cleared u.openLevel where
  lits := h.lits
  starts := by rw [Trail.openLevel, Trail.openLevel, h.starts, h.lits]
  head := h.head
  varCount := h.varCount
  value := h.value
  level := h.level
  reason := h.reason

/-- A new variable has no reason to be forgotten. -/
theorem push (h : t.Cleared u) :
    Cleared { t with cells := t.cells.push {} } { u with cells := u.cells.push {} } where
  lits := h.lits
  starts := h.starts
  head := h.head
  varCount := by
    rw [Trail.varCount, Trail.varCount, Array.size_push, Array.size_push]
    exact congrArg (· + 1) h.varCount
  value v := by
    rw [cellOf_push, cellOf_push]
    exact h.value v
  level v := by
    rw [levelOf, levelOf, cellOf_push, cellOf_push]
    exact h.level v
  reason v := by
    rw [reasonOf, reasonOf, cellOf_push, cellOf_push]
    exact h.reason v

end Trail.Cleared

namespace Network

variable {n n' : Network} {dead dead' : Lit → Prop} {line : Lit → List Watcher} {l : Lit}
  {r : Option Handle} {h : Handle} {c : Constraint} {t : Trail}

/-- The parts of a network fit together once some reasons are forgotten. -/
def Aligned (n : Network) (dead : Lit → Prop) (line : Lit → List Watcher) : Prop :=
  ∃ t, n.trail.Cleared t ∧ Sane { n with trail := t } dead line

/-- In a sane network nothing has to be forgotten. -/
theorem Sane.aligned (hs : n.Sane dead line) : n.Aligned dead line := ⟨n.trail, .refl _, hs⟩

/-! ## What is left of sanity

Everything that does not speak of reasons. -/

namespace Aligned

/-- The trail is valid. -/
theorem trail (ha : n.Aligned dead line) : n.trail.Valid := by
  obtain ⟨t, hc, hs⟩ := ha
  exact hc.valid_of hs.trail

/-- The literals that wait are of the current level. -/
theorem queued (ha : n.Aligned dead line) : n.trail.Queued := by
  obtain ⟨t, hc, hs⟩ := ha
  exact hc.queued_of hs.queued

/-- The constraints are well formed. -/
theorem formed (ha : n.Aligned dead line) (hc : n.store.get? h = some c) :
    c.WellFormed n.trail.varCount := by
  obtain ⟨t, hcl, hs⟩ := ha
  exact hcl.varCount ▸ hs.formed h c hc

/-- The watch index is exact. -/
theorem lines (ha : n.Aligned dead line) : Exact line n.store dead := by
  obtain ⟨t, -, hs⟩ := ha
  exact hs.lines

/-- Dead literals are false. -/
theorem dead_false (ha : n.Aligned dead line) {b : Lit} (hb : dead b) : b.neg ∈ n.trail := by
  obtain ⟨t, hc, hs⟩ := ha
  exact hc.mem_iff.1 (hs.dead_false b hb)

/-- A literal that a watcher names is known. -/
theorem known_of_blocker (ha : n.Aligned dead line) {x : Watcher} (hx : x ∈ line l)
    (hc : n.store.get? x.handle = some c) {b : Lit} (hb : x.blocker = some b) :
    b.var.index < n.trail.varCount := by
  rcases (ha.lines.blocker l x hx c hc b hb).2 with hmem | hdead
  · exact (ha.formed hc).known b hmem
  · exact ha.trail.lt_varCount (l := b.neg) (ha.dead_false hdead)

/-- More literals may be dead, if they are false. -/
theorem dead_mono (ha : n.Aligned dead line) (hsub : ∀ l, dead l → dead' l)
    (hfalse : ∀ l, dead' l → l.neg ∈ n.trail) : n.Aligned dead' line := by
  obtain ⟨t, hc, hs⟩ := ha
  exact ⟨t, hc, hs.dead_mono hsub fun l hl => hc.mem_iff.2 (hfalse l hl)⟩

/-! ## Steps

What is assigned may have any reason: it can be forgotten. -/

/-- A literal is assigned. -/
theorem assign (ha : n.Aligned dead line) (h : n.trail.assign l r = .ok t) :
    Aligned { n with trail := t } dead line := by
  obtain ⟨u, hc, hs⟩ := ha
  -- without a reason there is nothing to be explained
  obtain ⟨u', hu, hc'⟩ := hc.assign (Or.inr rfl) h
  exact ⟨u', hc', hs.assign (Trail.assigned_of_assign hu) (by simp)⟩

/-- A level is opened. -/
theorem openLevel (ha : n.Aligned dead line) (hh : n.trail.head = n.trail.lits.size) :
    Aligned { n with trail := n.trail.openLevel } dead line := by
  obtain ⟨u, hc, hs⟩ := ha
  exact ⟨u.openLevel, hc.openLevel,
    hs.openLevel (by rw [show u.head = _ from hc.head, show u.lits = _ from hc.lits, hh])⟩

/-- Levels are taken back. -/
theorem rewind (ha : n.Aligned dead line) (b : Nat)
    (hdead : ∀ l, dead l → n.trail.levelOf l.var = 0) :
    Aligned { n with trail := (n.trail.rewind b).2 } dead line := by
  obtain ⟨u, hc, hs⟩ := ha
  exact ⟨(u.rewind b).2, hc.rewind b, hs.rewind b fun l hl => (hc.level _).trans (hdead l hl)⟩

/-- When nothing is assigned, there are no reasons. -/
theorem rewindAll (ha : n.Aligned dead line) (hdead : ∀ l, ¬ dead l) :
    Sane { n with trail := n.trail.rewindAll.2 } dead line where
  trail := Trail.valid_rewindAll ha.trail
  queued := Nat.zero_le _
  formed a c hc := by
    rw [show n.trail.rewindAll.2.varCount = n.trail.varCount from Trail.varCount_rewindAll _]
    exact ha.formed hc
  lines := ha.lines
  reasons i m a hi := absurd (List.mem_of_getElem? hi) (Trail.not_mem_rewindAll _ _)
  dead_false l hl := absurd hl (hdead l)

/-- The index is given by its lines. -/
theorem withIndex (ha : n.Aligned dead line) (index : WatchIndex) :
    Aligned { n with index } dead line := by
  obtain ⟨u, hc, hs⟩ := ha
  exact ⟨u, hc, hs.trail, hs.queued, hs.formed, hs.lines, hs.reasons, hs.dead_false⟩

/-- Activities change. -/
theorem relabels (ha : n.Aligned dead line) {store : Store} (hr : n.store.Relabels store) :
    Aligned { n with store } dead line := by
  obtain ⟨u, hc, hs⟩ := ha
  exact ⟨u, hc, hs.relabels hr⟩

/-- A constraint is stored and watched. -/
theorem stores (ha : n.Aligned dead n.index.line) (hst : n.Stores n' h c)
    (hc : c.WellFormed n.trail.varCount) : n'.Aligned dead n'.index.line := by
  obtain ⟨u, hcl, hs⟩ := ha
  have hst' : Stores { n with trail := u } { n' with trail := u } h c :=
    ⟨hst.fresh, hst.size, hst.get?, rfl, hst.watchers⟩
  exact ⟨u, hst.trail ▸ hcl, hs.stores hst' (hcl.varCount.symm ▸ hc)⟩

/-- A variable is added. -/
theorem newVar (ha : n.Aligned dead n.index.line) (v : Var) :
    Aligned { n with
      trail := { n.trail with cells := n.trail.cells.push {} }, index := n.index.addVar v }
      dead (n.index.addVar v).line := by
  obtain ⟨u, hc, hs⟩ := ha
  exact ⟨_, hc.push, hs.newVar v⟩

end Aligned

/-! ## Propagating -/

/-- What a propagation of an aligned network ends with. New literals have reasons that explain
them, and another literal of the same level has prompted them. -/
structure Spread (dead : Lit → Prop) (n : Network) (failed : Option Handle) (n' : Network) :
    Prop where
  aligned : n'.Aligned dead n'.index.line
  advances : n.Advances n'
  explained : ∀ i m a, n'.trail.lits.toList[i]? = some m → m ∉ n.trail →
    n'.trail.reasonOf m.var = some a →
    ∃ c, n'.store.get? a = some c ∧ c.Explains n'.trail (n'.trail.lits.toList.take i) m
  conflict : ∀ h, failed = some h → n'.Conflict h
  idle : n'.trail.head = n'.trail.lits.size

/-- A propagation that is the same without some reasons has added to the trail only. -/
theorem extends_of_alike {t' u u' : Trail} (hv : t.Valid) (hc : t.Cleared u)
    (ha : t.Alike t' u') (hx : u.Extends u') : t.Extends t' where
  lits := by
    have := hx.lits
    rwa [hc.lits, ha.cleared.lits] at this
  starts := by rw [← ha.cleared.starts, hx.starts, hc.starts]
  varCount := ha.cleared.varCount.symm.trans (hx.varCount.trans hc.varCount)
  cell l hl := by
    refine (ha.cell l.var).resolve_right fun hunset => ?_
    have htrue := (hv.truth_yes l).2 hl
    rw [Trail.truth, hunset.1] at htrue
    cases hneg : l.negated <;> simp [hneg, Truth.ofSide, Truth.neg] at htrue
  free v hno := (ha.cell v).resolve_right fun hunset => by
    obtain ⟨-, l, hl, hlv⟩ := hunset
    exact hno l hl hlv

/-- A propagation of an aligned network, carried over from the one without the reasons. -/
theorem spread_of_propagate {failed : Option Handle} (ha : n.Aligned dead n.index.line)
    (h : n.propagate = .ok (failed, n')) : Spread dead n failed n' := by
  have hv := ha.trail
  obtain ⟨u, hc, hs⟩ := ha
  -- propagation does the same on the trail without the reasons, which is sane
  obtain ⟨u', hu, ha'⟩ := alike_of_propagate hc h
  have hsound : Sound { n with trail := u } fun _ => False := ⟨by simp, by simp⟩
  obtain ⟨hp, hidle⟩ : Propagated dead (fun _ => True) _ _ _ _ ∧ _ :=
    propagated_of_propagate hs hsound (fun _ _ _ _ _ _ => Or.inl trivial) hu
  have hc' := ha'.cleared
  have hmem : ∀ {l : Lit}, l ∈ u' ↔ l ∈ n'.trail := hc'.mem_iff
  have hx := extends_of_alike hv hc ha' hp.advances.trail
  -- what a new literal has as its reason is not forgotten
  have hreason : ∀ m ∈ n'.trail, m ∉ n.trail → u'.reasonOf m.var = n'.trail.reasonOf m.var :=
    fun m hm hno => (ha'.since m hm).resolve_left hno
  refine ⟨⟨u', hc', hp.sane⟩, ⟨hx, hp.advances.store, fun m hm => ?_, fun a c hca hat => ?_⟩,
    fun i m a hi hno hra => ?_, fun a hfail => ?_, ?_⟩
  · by_cases hno : m ∈ n.trail
    · exact Or.inl hno
    · obtain ⟨a, c, hra, hca, b, hb, hne, hlev, hbt⟩ :=
        (hp.advances.prompted m (hmem.2 hm)).resolve_left fun hmu => hno (hc.mem_iff.1 hmu)
      refine Or.inr ⟨a, c, (hreason m hm hno).symm.trans hra, hca, b, hb, hne, ?_,
        hbt.imp hmem.1 (And.imp_right hmem.1)⟩
      rw [← hc'.level, ← hc'.level]
      exact hlev
  · obtain ⟨c', hca', hhead⟩ := hp.advances.heads a c hca hat
    exact ⟨c', hca', hhead.imp_right fun hno m hm hmt => hno m hm (hc.mem_iff.2 hmt)⟩
  · have hm := List.mem_of_getElem? hi
    obtain ⟨c, hca, he⟩ := hp.sane.reasons i m a (by rw [hc'.lits]; exact hi)
      ((hreason m hm hno).trans hra)
    rw [show u'.lits = n'.trail.lits from hc'.lits] at he
    exact ⟨c, hca, he.keep ⟨(hc'.level _).symm, fun l hl _ => ⟨hmem.1 hl, (hc'.level _).symm⟩⟩⟩
  · obtain ⟨c, hca, hf, l, hl, hlt, hlev⟩ := (hp.conflict a hfail).1
    refine ⟨c, hca, hf.of_subset hp.sane.trail (hc'.valid_of hp.sane.trail) fun _ => hmem.1, l, hl,
      fun hat => hmem.1 (hlt hat), ?_⟩
    rw [← hc'.level, ← hc'.level_eq]
    exact hlev
  · rw [← hc'.head, ← hc'.lits]
    exact hidle

end Network

end CardSat
