import CardSat.Proofs.Network.Aligned

set_option autoImplicit false

/-! # Stray literals

A caller who learns a pending clause where it does not force its first literal leaves a literal on
the trail that its reason does not explain: some other literals of the clause may have no value, or
none of them may be of the same level. Such a literal is called stray.

A clause is only pending once, and it is learnt at the level to which its second literal belonged,
so stray literals are rare. In a `Layered` network there is at most one of them on each level, and
those below it do not disturb it: of the literals of its clause, those whose last value was of the
level of a lower stray literal, or below, have a value still. The same is true of a clause that
waits to be learnt (`Network.Fitting`). Every step keeps this (`Continues.layered`,
`Continues.fitting`, `Learns.layered`).

## What this is for

An analysis has to come to an end on its level, and what it derives has to be a clause that can be
learnt: with distinct variables, and on a level below. On a trail without stray literals that
follows from the reasons. With them it does not, and a conflict could be analysed above one. That
there is at most one on a level is just enough for the walk down it (`Proofs/Analysis/Walk`).

Levels are compared, not worlds: none of this says that anything follows from the constraints.
-/

namespace CardSat

namespace Trail

variable {t t' : Trail}

/-- The variable has a value. -/
def Has (t : Trail) (v : Var) : Prop := ∃ l ∈ t, l.var = v

/-- A trail that another one becomes when levels are taken back or opened and literals are added
on the last one. -/
structure Continues (t t' : Trail) : Prop where
  stays : ∀ l ∈ t, t.levelOf l.var ≤ t'.level → l ∈ t'
  level : ∀ l ∈ t, l ∈ t' → t'.levelOf l.var = t.levelOf l.var
  place : ∀ i l, t'.lits.toList[i]? = some l → l ∈ t →
    t.lits.toList[i]? = some l ∧ t'.lits.toList.take i = t.lits.toList.take i
  free : ∀ v, ¬ t'.Has v → t'.levelOf v = t.levelOf v

theorem continues_of_same (hlits : t'.lits = t.lits) (hlevel : ∀ v, t'.levelOf v = t.levelOf v) :
    t.Continues t' where
  stays l hl _ := by rwa [mem_def, hlits]
  level l _ _ := hlevel _
  place i l hi _ := by
    rw [hlits] at hi ⊢
    exact ⟨hi, rfl⟩
  free v _ := hlevel v

theorem Extends.continues (h : t.Extends t') (hv : t'.Valid) : t.Continues t' where
  stays l hl _ := h.mem hl
  level l hl _ := h.levelOf hl
  place i l hi hl := by
    have hlt : i < t.lits.size := by
      by_contra hge
      exact h.not_mem_of_size_le hv hi (Nat.le_of_not_lt hge) hl
    have htake := h.take_eq (i := i) (Nat.le_of_lt hlt)
    obtain ⟨s, hs⟩ := h.lits
    rw [← hs, List.getElem?_append_left (by simpa using hlt)] at hi
    exact ⟨hi, htake⟩
  free v hv := by
    rw [Trail.levelOf, h.free v fun l hl hlv => hv ⟨l, hl, hlv⟩, Trail.levelOf]

theorem continues_rewind (hv : t.Valid) (b : Nat) : t.Continues (t.rewind b).2 where
  stays l hl hle := by
    have hlevel : (t.rewind b).2.level ≤ b := by
      rw [level_rewind]
      exact Nat.min_le_left b t.level
    exact (mem_rewind hv).2 ⟨hl, Nat.le_trans hle hlevel⟩
  level l _ _ := levelOf_rewind t b _
  place i l hi _ := by
    rw [lits_rewind, List.getElem?_take] at hi
    split at hi
    next hlt => exact ⟨hi, by rw [lits_rewind, List.take_take, Nat.min_eq_left (Nat.le_of_lt hlt)]⟩
    next => cases hi
  free v _ := levelOf_rewind t b v

end Trail

namespace Network

variable {n n' : Network} {i j s r : Nat} {l m : Lit} {as as' bs : List Lit} {h : Handle}
  {c : Constraint}

/-! ## Literals that clauses have forced

A position of the trail, with the clause that was the reason of its literal. The other literals of
the clause are given as a list up to order, since the clause may have been rearranged since. -/

/-- Position `i` of the trail holds the literal `m` of a level above the ground level, and it was
made true because of a clause whose other literals are `as`. -/
structure Forced (n : Network) (i : Nat) (m : Lit) (as : List Lit) : Prop where
  at_ : n.trail.lits.toList[i]? = some m
  above : 0 < n.trail.levelOf m.var
  reason : ∃ h c, n.trail.reasonOf m.var = some h ∧ n.store.get? h = some c ∧
    c.isAtMost = false ∧ c.lits.toList = m :: as

/-- The variables of `as` had values before position `i`, and one of them is of the level of `m`. -/
structure Regular (n : Network) (i : Nat) (m : Lit) (as : List Lit) : Prop where
  before : ∀ a ∈ as, ∃ b ∈ n.trail.lits.toList.take i, b.var = a.var
  prompted : ∃ a ∈ as, n.trail.levelOf a.var = n.trail.levelOf m.var

/-- A literal that its reason need not explain. -/
def Stray (n : Network) (i : Nat) (m : Lit) (as : List Lit) : Prop :=
  n.Forced i m as ∧ ¬ n.Regular i m as

/-- Those of the literals whose last value was of level `s` or below have a value. -/
def Grounded (n : Network) (s : Nat) (as : List Lit) : Prop :=
  ∀ a ∈ as, n.trail.levelOf a.var ≤ s → n.trail.Has a.var

/-- There is at most one stray literal on each level, and the clause of a higher one is grounded on
the level of a lower one. -/
structure Layered (n : Network) : Prop where
  single : ∀ {i j m l as bs}, n.Stray i m as → n.Stray j l bs →
    n.trail.levelOf m.var = n.trail.levelOf l.var → i = j
  grounded : ∀ {i j m l as bs}, n.Stray i m as → n.Stray j l bs →
    n.trail.levelOf m.var < n.trail.levelOf l.var → n.Grounded (n.trail.levelOf m.var) bs

/-- A clause whose literals but the first are `as` can be learnt on level `r`: if that level has a
stray literal already, the clause does not add another one. -/
def Fitting (n : Network) (r : Nat) (as : List Lit) : Prop :=
  ∀ {i m bs}, n.Stray i m bs → n.trail.levelOf m.var ≤ r →
    n.Grounded (n.trail.levelOf m.var) as ∧
      (n.trail.levelOf m.var = r → (∀ a ∈ as, n.trail.levelOf a.var ≤ r) ∧
        ∃ a ∈ as, n.trail.levelOf a.var = r)

/-- What the reason of the literal at position `i` says, if it is stored still: it heads the clause,
or the at-most constraint explains it. -/
structure Accounted (n : Network) (i : Nat) (m : Lit) (c : Constraint) : Prop where
  clause : c.isAtMost = false → c.lits.toList.head? = some m
  atMost : c.isAtMost = true → c.Explains n.trail (n.trail.lits.toList.take i) m ∧
    ∃ b ∈ c.lits.toList, b ∈ n.trail.lits.toList.take i ∧
      n.trail.levelOf b.var = n.trail.levelOf m.var

/-- Above the ground level every reason was issued and accounts for its literal. -/
def Reasoned (n : Network) : Prop :=
  ∀ i m h, n.trail.lits.toList[i]? = some m → 0 < n.trail.levelOf m.var →
    n.trail.reasonOf m.var = some h → h.index < n.store.slots.size ∧
      ∀ c, n.store.get? h = some c → n.Accounted i m c

/-! ## At the ground level

Nothing is forced above the ground level there, so there is nothing to say. -/

/-- A forced literal is of a level above the ground level. -/
theorem Forced.lt_level (hf : n.Forced i m as) (hv : n.trail.Valid) : 0 < n.trail.level :=
  Nat.lt_of_lt_of_le hf.above (hv.levelOf_le (List.mem_of_getElem? hf.at_))

/-- There are no stray literals. -/
theorem not_stray (hv : n.trail.Valid) (hground : n.trail.level = 0) : ¬ n.Stray i m as :=
  fun hst => absurd (hst.1.lt_level hv) (by omega)

/-- The network is layered. -/
theorem layered_of_ground (hv : n.trail.Valid) (hground : n.trail.level = 0) : n.Layered :=
  ⟨fun h => absurd h (not_stray hv hground), fun h => absurd h (not_stray hv hground)⟩

/-- Any clause fits. -/
theorem fitting_of_ground (hv : n.trail.Valid) (hground : n.trail.level = 0) : n.Fitting r as :=
  fun h => absurd h (not_stray hv hground)

/-- No literal has to be accounted for. -/
theorem reasoned_of_ground (hv : n.trail.Valid) (hground : n.trail.level = 0) : n.Reasoned :=
  fun _ _ _ hi hpos _ => by
    have := hv.levelOf_le (List.mem_of_getElem? hi)
    omega

/-! ## Steps

A step may take levels back, open a level, and add literals on the last one. A literal that is still
there was forced by the same clause as before; a new one is explained by its reason, so it is not
stray. -/

/-- A network that another one becomes: the trail continues, and what was a reason is one still or
has been forgotten, with the same literals if it is stored still. -/
structure Continues (n n' : Network) : Prop where
  trail : n.trail.Continues n'.trail
  reason : ∀ l ∈ n.trail, l ∈ n'.trail →
    n'.trail.reasonOf l.var = n.trail.reasonOf l.var ∨ n'.trail.reasonOf l.var = none
  slots : n.store.slots.size ≤ n'.store.slots.size
  back : ∀ h c', h.index < n.store.slots.size → n'.store.get? h = some c' →
    ∃ c, n.store.get? h = some c ∧ c.Same c' ∧ (c.isAtMost = false →
      c'.lits.toList.head? = c.lits.toList.head? ∨
        ∀ m, c.lits.toList.head? = some m → m ∉ n.trail)

/-- New literals have reasons that explain them, and another literal of their level. -/
def ExplainsNew (n n' : Network) : Prop :=
  ∀ i m h, n'.trail.lits.toList[i]? = some m → m ∉ n.trail → n'.trail.reasonOf m.var = some h →
    h.index < n'.store.slots.size ∧ ∀ c, n'.store.get? h = some c →
      n'.Accounted i m c ∧ (c.isAtMost = false → n'.Regular i m c.lits.toList.tail)

/-- What is explained is not stray. -/
theorem ExplainsNew.mem_of_stray (hnew : ExplainsNew n n') (hst : n'.Stray i m as) :
    m ∈ n.trail := by
  by_contra hno
  obtain ⟨⟨hi, -, h, c, hreason, hget, hat, hlits⟩, hreg⟩ := hst
  have := ((hnew i m h hi hno hreason).2 c hget).2 hat
  rw [hlits] at this
  exact hreg this

namespace Continues

variable (hc : n.Continues n')
include hc

/-- A literal that is still there has the same literals before it. -/
theorem regular (hr : n.Regular i m as) (hm : m ∈ n.trail)
    (hi : n'.trail.lits.toList[i]? = some m) : n'.Regular i m as := by
  obtain ⟨-, htake⟩ := hc.trail.place i m hi hm
  have hlevel := hc.trail.level m hm (List.mem_of_getElem? hi)
  obtain ⟨hbefore, a, ha, hlev⟩ := hr
  -- what has prompted `m` stands before it, and what stands before it has not changed
  refine ⟨fun b hb => htake ▸ hbefore b hb, a, ha, ?_⟩
  obtain ⟨b, hb, hba⟩ := hbefore a ha
  have hb' : b ∈ n'.trail := List.mem_of_mem_take (htake.symm ▸ hb)
  rw [hlevel, ← hlev, ← hba]
  exact hc.trail.level b (List.mem_of_mem_take hb) hb'

/-- A clause that has forced a literal already has the same literals as then. -/
theorem forced_of_mem (hr : n.Reasoned) (hf : n'.Forced i m as') (hm : m ∈ n.trail) :
    ∃ as, n.Forced i m as ∧ ∀ a, a ∈ as' ↔ a ∈ as := by
  obtain ⟨hi, habove, h, c', hreason', hget', hat', hlits'⟩ := hf
  obtain ⟨hi₀, -⟩ := hc.trail.place i m hi hm
  rw [hc.trail.level m hm (List.mem_of_getElem? hi)] at habove
  have hreason : n.trail.reasonOf m.var = some h := by
    rcases hc.reason m hm (List.mem_of_getElem? hi) with heq | hnone
    · rw [← heq, hreason']
    · rw [hreason'] at hnone
      cases hnone
  -- a handle that was issued before is not used for another clause later
  obtain ⟨hissued, hacc⟩ := hr i m h hi₀ habove hreason
  obtain ⟨c, hget, hsame, -⟩ := hc.back h c' hissued hget'
  have hat : c.isAtMost = false := hsame.isAtMost_eq.symm.trans hat'
  obtain ⟨as, hlits⟩ := List.head?_eq_some_iff.1 ((hacc c hget).clause hat)
  refine ⟨as, ⟨hi₀, habove, h, c, hreason, hget, hat, hlits⟩, fun a => ?_⟩
  have hperm := hsame.perm
  rw [hlits', hlits] at hperm
  exact ((List.perm_cons m).1 hperm).mem_iff

/-- A stray literal that is still there was stray before, because of the same clause. -/
theorem stray_of_mem (hr : n.Reasoned) (hst : n'.Stray i m as') (hm : m ∈ n.trail) :
    ∃ as, n.Stray i m as ∧ (∀ a, a ∈ as' ↔ a ∈ as) ∧
      n'.trail.levelOf m.var = n.trail.levelOf m.var := by
  obtain ⟨as, hf, hmem⟩ := hc.forced_of_mem hr hst.1 hm
  have hm' := List.mem_of_getElem? hst.1.at_
  refine ⟨as, ⟨hf, fun hreg => hst.2 ?_⟩, hmem, hc.trail.level m hm hm'⟩
  have hreg' := hc.regular hreg hm hst.1.at_
  obtain ⟨a, ha, hlev⟩ := hreg'.prompted
  exact ⟨fun a ha => hreg'.before a ((hmem a).1 ha), a, (hmem a).2 ha, hlev⟩

/-- What has a value still has one, as long as its level is there. -/
theorem grounded (hg : n.Grounded s as) (hs : s ≤ n'.trail.level) : n'.Grounded s as := by
  intro a ha hle
  by_contra hno
  rw [hc.trail.free _ hno] at hle
  obtain ⟨l, hl, hla⟩ := hg a ha hle
  exact hno ⟨l, hc.trail.stays l hl (by rw [hla]; omega), hla⟩

/-- A clause that can be learnt can be learnt still. -/
theorem fitting (hv' : n'.trail.Valid) (hr : n.Reasoned) (hnew : ExplainsNew n n')
    (hf : n.Fitting r as) : n'.Fitting r as := by
  intro i m bs hst hle
  obtain ⟨bs₀, hst₀, -, hlevel⟩ := hc.stray_of_mem hr hst (hnew.mem_of_stray hst)
  have hopen := hv'.levelOf_le (List.mem_of_getElem? hst.1.at_)
  rw [hlevel] at hle hopen ⊢
  obtain ⟨hg, heq⟩ := hf hst₀ hle
  refine ⟨hc.grounded hg hopen, fun hmr => ?_⟩
  obtain ⟨hall, a, ha, har⟩ := heq hmr
  -- all of them have values, which they keep
  have hkeep : ∀ a ∈ as, n'.trail.levelOf a.var = n.trail.levelOf a.var := by
    intro a ha
    obtain ⟨b, hb, hba⟩ := hg a ha (hmr ▸ hall a ha)
    have hble : n.trail.levelOf b.var ≤ n'.trail.level := by
      rw [hba]
      exact Nat.le_trans (hmr ▸ hall a ha) hopen
    rw [← hba]
    exact hc.trail.level b hb (hc.trail.stays b hb hble)
  exact ⟨fun a ha => hkeep a ha ▸ hall a ha, a, ha, (hkeep a ha).trans har⟩

/-- The literals up to the level of one that is still there are the same. -/
theorem keeps (hv' : n'.trail.Valid) (hm : m ∈ n.trail) (hm' : m ∈ n'.trail) :
    n.trail.Keeps n'.trail m := by
  have hlevel := hc.trail.level m hm hm'
  refine ⟨hlevel, fun l hl hle => ?_⟩
  have hl' := hc.trail.stays l hl (Nat.le_trans hle (hlevel ▸ hv'.levelOf_le hm'))
  exact ⟨hl', hc.trail.level l hl hl'⟩

/-- A constraint accounts for a literal that is still there, if it was rearranged as propagation
does. -/
theorem accounted (hv' : n'.trail.Valid) (hm : m ∈ n.trail) {c' : Constraint}
    (hi : n'.trail.lits.toList[i]? = some m) (ha : n.Accounted i m c) (hsame : c.Same c')
    (hhead : c.isAtMost = false → c'.lits.toList.head? = c.lits.toList.head? ∨
      ∀ m, c.lits.toList.head? = some m → m ∉ n.trail) : n'.Accounted i m c' where
  clause hat' := by
    have hat := hsame.isAtMost_eq.symm.trans hat'
    -- a clause gets another head only if its head has no value, but `m` has one
    rcases hhead hat with heq | hno
    · rw [heq, ha.clause hat]
    · exact absurd hm (hno m (ha.clause hat))
  atMost hat' := by
    have hat := hsame.isAtMost_eq.symm.trans hat'
    obtain ⟨hex, b, hb, hbi, hlev⟩ := ha.atMost hat
    obtain ⟨-, htake⟩ := hc.trail.place i m hi hm
    have hm' := List.mem_of_getElem? hi
    rw [htake]
    refine ⟨(hex.keep (hc.keeps hv' hm hm')).same hsame fun hno => ?_, b, hsame.mem_iff.2 hb, hbi, ?_⟩
    · rw [hat] at hno
      cases hno
    · rw [hc.trail.level m hm hm', ← hlev]
      exact hc.trail.level b (List.mem_of_mem_take hbi) (List.mem_of_mem_take (htake ▸ hbi))

/-- What was reasoned is so still. -/
theorem accounted_of_mem (hv' : n'.trail.Valid) (hr : n.Reasoned) (hm : m ∈ n.trail)
    (hi : n'.trail.lits.toList[i]? = some m) (hpos : 0 < n'.trail.levelOf m.var)
    (hreason : n'.trail.reasonOf m.var = some h) :
    h.index < n'.store.slots.size ∧ ∀ c, n'.store.get? h = some c → n'.Accounted i m c := by
  have hm' := List.mem_of_getElem? hi
  obtain ⟨hi₀, -⟩ := hc.trail.place i m hi hm
  rw [hc.trail.level m hm hm'] at hpos
  have hreason₀ : n.trail.reasonOf m.var = some h := by
    rcases hc.reason m hm hm' with heq | hnone
    · rw [← heq, hreason]
    · rw [hreason] at hnone
      cases hnone
  obtain ⟨hissued, hacc⟩ := hr i m h hi₀ hpos hreason₀
  refine ⟨Nat.lt_of_lt_of_le hissued hc.slots, fun c' hget' => ?_⟩
  obtain ⟨c, hget, hsame, hhead⟩ := hc.back h c' hissued hget'
  exact hc.accounted hv' hm hi (hacc c hget) hsame hhead

/-- Every reason accounts for its literal: the old ones as before, the new ones since they explain
it. -/
theorem reasoned (hv' : n'.trail.Valid) (hr : n.Reasoned) (hnew : ExplainsNew n n') :
    n'.Reasoned := by
  intro i m h hi hpos hreason
  by_cases hm : m ∈ n.trail
  · exact hc.accounted_of_mem hv' hr hm hi hpos hreason
  · obtain ⟨hissued, hall⟩ := hnew i m h hi hm hreason
    exact ⟨hissued, fun c hget => (hall c hget).1⟩

/-- There are no more stray literals than before, and they are grounded as before. -/
theorem layered (hv' : n'.trail.Valid) (hl : n.Layered) (hr : n.Reasoned)
    (hnew : ExplainsNew n n') : n'.Layered where
  single hs₁ hs₂ heq := by
    obtain ⟨_, h₁, -, hlev₁⟩ := hc.stray_of_mem hr hs₁ (hnew.mem_of_stray hs₁)
    obtain ⟨_, h₂, -, hlev₂⟩ := hc.stray_of_mem hr hs₂ (hnew.mem_of_stray hs₂)
    exact hl.single h₁ h₂ (hlev₁.symm.trans (heq.trans hlev₂))
  grounded {i j m l as bs} hs₁ hs₂ hlt := by
    obtain ⟨_, h₁, -, hlev₁⟩ := hc.stray_of_mem hr hs₁ (hnew.mem_of_stray hs₁)
    obtain ⟨bs₀, h₂, hmem, hlev₂⟩ := hc.stray_of_mem hr hs₂ (hnew.mem_of_stray hs₂)
    have hg := hc.grounded (hl.grounded h₁ h₂ (by omega))
      (hlev₁ ▸ hv'.levelOf_le (List.mem_of_getElem? hs₁.1.at_))
    rw [hlev₁]
    exact fun a ha => hg a ((hmem a).1 ha)

end Continues

/-! ## Kinds of steps

Propagating, going back, deciding, and what does not change the literals. -/

/-- Where the trail has the same literals, nothing is new. -/
theorem explainsNew_of_same (hlits : n'.trail.lits = n.trail.lits) : ExplainsNew n n' :=
  fun i m h hi hno => absurd (by
    rw [hlits] at hi
    exact List.mem_of_getElem? hi) hno

/-- A propagation explains what it adds. -/
theorem Spread.continues {dead : Lit → Prop} {failed : Option Handle} (hs : Spread dead n failed n') :
    n.Continues n' ∧ ExplainsNew n n' := by
  have hv' := hs.aligned.trail
  have hx := hs.advances.trail
  refine ⟨⟨hx.continues hv', fun l hl _ => Or.inl (hx.reasonOf hl), ?_, fun h c' _ hget' => ?_⟩,
    fun i m h hi hno hreason => ?_⟩
  · exact Nat.le_of_eq hs.advances.store.size.symm
  · obtain ⟨c, hget, hsame⟩ := hs.advances.store.back h c' hget'
    refine ⟨c, hget, hsame, fun hat => ?_⟩
    obtain ⟨c'', hget'', hhead⟩ := hs.advances.heads h c hget hat
    obtain rfl := Option.some.inj (hget'.symm.trans hget'')
    exact hhead
  · obtain ⟨c, hget, hex⟩ := hs.explained i m h hi hno hreason
    obtain ⟨h', c', hreason', hget', b, hb, hne, hlev, hbt⟩ :=
      (hs.advances.prompted m (List.mem_of_getElem? hi)).resolve_left hno
    obtain rfl := Option.some.inj (hreason.symm.trans hreason')
    obtain rfl := Option.some.inj (hget.symm.trans hget')
    refine ⟨Store.lt_of_get? hget, fun d hd => ?_⟩
    obtain rfl := Option.some.inj (hget.symm.trans hd)
    refine ⟨⟨fun hat => (hex.clause hat).1, fun hat => ⟨hex, b, hb, ?_, hlev⟩⟩, fun hat =>
      ⟨fun a ha => ⟨a.neg, (hex.clause hat).2 a ha, rfl⟩, b, ?_, hlev⟩⟩
    · obtain ⟨k, hk⟩ := Constraint.isAtMost_eq_true.1 hat
      have hbt' : b ∈ n'.trail := hbt.resolve_right fun hno => by
        rw [hat] at hno
        cases hno.1
      exact ((hex.atMost k hk).2.2 b hb).resolve_right fun hneg => hv'.neg_not_mem hbt' hneg.1
    · obtain ⟨as, has⟩ := List.head?_eq_some_iff.1 (hex.clause hat).1
      rw [has] at hb ⊢
      exact (List.mem_cons.1 hb).resolve_left fun heq => hne (heq ▸ rfl)

/-- Going back. -/
theorem continues_rewind (hv : n.trail.Valid) (b : Nat) :
    n.Continues { n with trail := (n.trail.rewind b).2 } ∧
      ExplainsNew n { n with trail := (n.trail.rewind b).2 } := by
  refine ⟨⟨Trail.continues_rewind hv b, fun l _ hl => Or.inl (Trail.reasonOf_rewind hv hl),
    Nat.le_refl _, fun h c' _ hget' => ⟨c', hget', .refl _, fun _ => Or.inl rfl⟩⟩,
    fun i m h hi hno => ?_⟩
  exact absurd ((Trail.mem_rewind hv).1 (List.mem_of_getElem? hi)).1 hno

/-- A decision or a fact. -/
theorem continues_of_assign {t : Trail} (hv : n.trail.Valid) (ha : n.trail.Assigned l none t) :
    n.Continues { n with trail := t } ∧ ExplainsNew n { n with trail := t } := by
  have hx := ha.extends hv
  refine ⟨⟨hx.continues (ha.valid hv), fun m hm _ => Or.inl (hx.reasonOf hm), Nat.le_refl _,
    fun h c' _ hget' => ⟨c', hget', .refl _, fun _ => Or.inl rfl⟩⟩, fun i m h hi hno hreason => ?_⟩
  obtain rfl := (ha.mem_iff.1 (List.mem_of_getElem? hi)).resolve_left hno
  rw [show Trail.reasonOf _ m.var = none from ha.reasonOf_self] at hreason
  cases hreason

/-- The trail has the same literals and levels. -/
theorem continues_of_same (hlits : n'.trail.lits = n.trail.lits)
    (hlevel : ∀ v, n'.trail.levelOf v = n.trail.levelOf v)
    (hreason : ∀ v, n'.trail.reasonOf v = n.trail.reasonOf v ∨ n'.trail.reasonOf v = none)
    (hslots : n.store.slots.size ≤ n'.store.slots.size)
    (hback : ∀ h c', h.index < n.store.slots.size → n'.store.get? h = some c' →
      ∃ c, n.store.get? h = some c ∧ c.Same c' ∧ c'.lits = c.lits) :
    n.Continues n' ∧ ExplainsNew n n' := by
  refine ⟨⟨Trail.continues_of_same hlits hlevel, fun l _ _ => hreason _, hslots,
    fun h c' hlt hget' => ?_⟩, explainsNew_of_same hlits⟩
  obtain ⟨c, hget, hsame, heq⟩ := hback h c' hlt hget'
  exact ⟨c, hget, hsame, fun _ => Or.inl (by rw [heq])⟩

/-! ## Learning

The one step that may add a stray literal. The clause that is learnt fits on the level, so if it is
stray then there was none on this level, and it is grounded on the levels of lower ones. -/

/-- The clause of `l` and `as` was stored under the fresh handle `h`, and it became the reason
of `l`. -/
structure Learns (n n' : Network) (h : Handle) (l : Lit) (as : List Lit) : Prop where
  continues : n.Continues n'
  assigned : n.trail.Assigned l (some h) n'.trail
  stored : ∃ c, n'.store.get? h = some c ∧ c.isAtMost = false ∧ c.lits.toList = l :: as

/-- A clause that is stored and asserted at once. -/
theorem Stores.learns {t : Trail} (hst : n.Stores n' h c) (hv : n.trail.Valid)
    (hat : c.isAtMost = false) (hlits : c.lits.toList = l :: as)
    (ha : n.trail.Assigned l (some h) t) : n.Learns { n' with trail := t } h l as := by
  have hx := ha.extends hv
  refine ⟨⟨hx.continues (ha.valid hv), fun m hm _ => Or.inl (hx.reasonOf hm), ?_,
    fun h' c' hlt hget' => ?_⟩, ha, c, (hst.get? h).trans (if_pos rfl), hat, hlits⟩
  · show n.store.slots.size ≤ n'.store.slots.size
    rw [hst.size]
    exact Nat.le_succ _
  · -- the handle of the new clause was not issued before
    have hne : h' ≠ h := by
      rintro rfl
      rw [hst.fresh] at hlt
      exact Nat.lt_irrefl _ hlt
    have hold : n'.store.get? h' = n.store.get? h' := (hst.get? h').trans (if_neg hne)
    exact ⟨c', hold ▸ hget', .refl _, fun _ => Or.inl rfl⟩

namespace Learns

variable (hle : n.Learns n' h l as) (hv : n.trail.Valid)
include hle hv

/-- The only new literal is the one that the clause forces. -/
theorem mem_or_eq (hst : n'.Stray i m bs) :
    m ∈ n.trail ∨ m = l ∧ i = n.trail.lits.size ∧ bs = as := by
  have ha := hle.assigned
  obtain ⟨⟨hi, -, h', c', hreason', hget', -, hlits'⟩, -⟩ := hst
  refine (ha.mem_iff.1 (List.mem_of_getElem? hi)).imp_right ?_
  rintro rfl
  obtain ⟨c, hget, -, hlits⟩ := hle.stored
  obtain rfl := Option.some.inj (ha.reasonOf_self.symm.trans hreason')
  obtain rfl := Option.some.inj (hget.symm.trans hget')
  refine ⟨rfl, ?_, (List.cons.inj (hlits'.symm.trans hlits)).2⟩
  have hlast : n'.trail.lits.toList[n.trail.lits.size]? = some m := by
    rw [ha.lits, List.getElem?_append_right (by simp)]
    simp
  exact (List.getElem?_inj (List.getElem?_eq_some_iff.1 hi).1 (ha.valid hv).distinct.of_map).1
    (hi.trans hlast.symm)

/-- Where the level has a stray literal already, the new one is not stray. -/
theorem not_stray (hf : n.Fitting n.trail.level as) (hst : n.Stray i m bs)
    (hlev : n.trail.levelOf m.var = n.trail.level) : ¬ n'.Stray j l as := by
  intro hst'
  have ha := hle.assigned
  have hx := ha.extends hv
  obtain ⟨-, hj, -⟩ := (hle.mem_or_eq hv hst').resolve_left fun hmem =>
    ha.var_ne_of_mem hv hmem rfl
  obtain ⟨hg, heq⟩ := hf hst (Nat.le_of_eq hlev)
  obtain ⟨hall, a, haa, har⟩ := heq hlev
  -- all other literals are grounded on this level, so they stand before the new one
  have hhas : ∀ a ∈ as, n.trail.Has a.var := fun a haa => hg a haa (hlev.symm ▸ hall a haa)
  refine hst'.2 ⟨fun a haa => ?_, a, haa, ?_⟩
  · obtain ⟨b, hb, hba⟩ := hhas a haa
    exact ⟨b, hj ▸ hx.mem_take hb (Nat.le_refl _), hba⟩
  · obtain ⟨b, hb, hba⟩ := hhas a haa
    rw [ha.levelOf_self, ← har, ← hba]
    exact hx.levelOf hb

/-- A clause that fits may be learnt. -/
theorem layered (hl : n.Layered) (hr : n.Reasoned) (hf : n.Fitting n.trail.level as) :
    n'.Layered := by
  have hv' := hle.assigned.valid hv
  have hself := hle.assigned.levelOf_self
  have hc := hle.continues
  refine ⟨fun {i j m p bs cs} hs₁ hs₂ heq => ?_, fun {i j m p bs cs} hs₁ hs₂ hlt => ?_⟩
  · -- either of the two may be the new literal
    rcases hle.mem_or_eq hv hs₁ with hm₁ | ⟨rfl, rfl, rfl⟩ <;>
      rcases hle.mem_or_eq hv hs₂ with hm₂ | ⟨rfl, rfl, rfl⟩
    · obtain ⟨_, h₁, -, hlev₁⟩ := hc.stray_of_mem hr hs₁ hm₁
      obtain ⟨_, h₂, -, hlev₂⟩ := hc.stray_of_mem hr hs₂ hm₂
      exact hl.single h₁ h₂ (hlev₁.symm.trans (heq.trans hlev₂))
    · obtain ⟨_, h₁, -, hlev₁⟩ := hc.stray_of_mem hr hs₁ hm₁
      exact absurd hs₂ (hle.not_stray hv hf h₁ (hlev₁.symm.trans (heq.trans hself)))
    · obtain ⟨_, h₂, -, hlev₂⟩ := hc.stray_of_mem hr hs₂ hm₂
      exact absurd hs₁ (hle.not_stray hv hf h₂ (hlev₂.symm.trans (heq.symm.trans hself)))
    · rfl
  · have hopen₁ := hv'.levelOf_le (List.mem_of_getElem? hs₁.1.at_)
    have hopen₂ := hv'.levelOf_le (List.mem_of_getElem? hs₂.1.at_)
    rw [hle.assigned.level_eq] at hopen₁ hopen₂
    -- the new literal is of the highest level, so it cannot be the lower one
    have hm₁ : m ∈ n.trail := (hle.mem_or_eq hv hs₁).resolve_right fun ⟨heq, _⟩ => by
      rw [heq, hself] at hlt
      omega
    obtain ⟨_, h₁, -, hlev₁⟩ := hc.stray_of_mem hr hs₁ hm₁
    rw [hlev₁] at hlt hopen₁ ⊢
    rw [← hle.assigned.level_eq] at hopen₁
    rcases hle.mem_or_eq hv hs₂ with hm₂ | ⟨rfl, rfl, rfl⟩
    · obtain ⟨cs₀, h₂, hmem, hlev₂⟩ := hc.stray_of_mem hr hs₂ hm₂
      have hg := hc.grounded (hl.grounded h₁ h₂ (hlev₂ ▸ hlt)) hopen₁
      exact fun a haa => hg a ((hmem a).1 haa)
    · rw [hself] at hlt
      exact hc.grounded (hf h₁ (Nat.le_of_lt hlt)).1 hopen₁

/-- The new literal heads its clause, which accounts for it. -/
theorem reasoned (hr : n.Reasoned) : n'.Reasoned := by
  intro i m h' hi hpos hreason
  by_cases hm : m ∈ n.trail
  · exact hle.continues.accounted_of_mem (hle.assigned.valid hv) hr hm hi hpos hreason
  · obtain rfl := (hle.assigned.mem_iff.1 (List.mem_of_getElem? hi)).resolve_left hm
    obtain ⟨c, hget, hat, hlits⟩ := hle.stored
    obtain rfl := Option.some.inj (hle.assigned.reasonOf_self.symm.trans hreason)
    refine ⟨Store.lt_of_get? hget, fun d hd => ?_⟩
    obtain rfl := Option.some.inj (hget.symm.trans hd)
    refine ⟨fun _ => by rw [hlits]; rfl, fun hyes => ?_⟩
    rw [hat] at hyes
    cases hyes

end Learns

end Network

end CardSat
