import CardSat.Proofs.Analysis
import CardSat.Proofs.Network.Layers

set_option autoImplicit false

/-! # Analyses on layered networks

What an analysis derives from a conflict need not follow from anything if there are stray literals
on the trail, and the marks that such an analysis leaves behind disturb later ones. But the clause
that it ends with has each of its variables once, and it may be learnt (`Network.Learnable`).

The reason is that the walk down the trail stays within the current level. As long as it has not
passed the stray literal of the level, there are at least as many marked literals ahead as are
pending, so it ends before they run out; and below the stray literal each literal of the level that
it resolves has brought it another one (`Derivation.Walking`).

This is the part of the analysis that holds of every call, also after a canceled search or an
assertion that was not forced, where the invariant `Deriving` fails. So nothing is said about
worlds. What is kept is what later additions and removals of constraints rely on: that learnt
clauses are well formed, that they are stored below the level of the conflict, and that what is
grounded stays so.
-/

namespace CardSat

namespace Network

variable {n : Network} {i : Nat} {m : Lit} {as : List Lit} {h : Handle} {c : Constraint}

/-- A clause that may be learnt on level `r`, whatever holds. -/
structure Learnable (n : Network) (r : Nat) (lits : List Lit) : Prop where
  two_le : 2 ≤ lits.length
  distinct : (lits.map Lit.var).Nodup
  known : ∀ l ∈ lits, l.var.index < n.trail.varCount
  fitting : n.Fitting r lits.tail

/-- What a failed constraint contributes: variables with values, one of them of the current level. -/
theorem antecedents_of_conflict (hv : n.trail.Valid) (hconf : n.Conflict h)
    (hc : n.store.get? h = some c) (has : c.antecedents n.trail false = .ok as) :
    (∀ a ∈ as, ∃ b ∈ n.trail.lits.toList.take n.trail.lits.size, b.var = a.var) ∧
      ∃ a ∈ as, n.trail.levelOf a.var = n.trail.level := by
  obtain ⟨d, hd, hfalse, l, hl, hlt, hlev⟩ := hconf
  obtain rfl := Option.some.inj (hc.symm.trans hd)
  -- a conflict is analysed from the end of the trail on
  rw [List.take_of_length_le (by simp)]
  cases ha : c.isAtMost with
  | false =>
      obtain rfl := Constraint.antecedents_clause ha has
      exact ⟨fun a haa => ⟨a.neg, hfalse.clause ha a haa, rfl⟩, l, hl, hlev⟩
  | true =>
      obtain ⟨k, hk⟩ := Constraint.isAtMost_eq_true.1 ha
      obtain rfl := Constraint.antecedents_atMost hk has
      refine ⟨fun a haa => ?_, l.neg, List.mem_map_of_mem (List.mem_filter.2 ⟨hl, ?_⟩), hlev⟩
      · obtain ⟨b, hb, rfl⟩ := List.mem_map.1 haa
        exact ⟨b, (hv.truth_yes b).1 (by simpa using (List.mem_filter.1 hb).2), rfl⟩
      · simpa using (hv.truth_yes l).2 (hlt ha)

/-- What a reason contributes, as long as the literal is not stray: variables with earlier values,
one of them of its level. -/
theorem antecedents_of_accounted (hv : n.trail.Valid) (ha : n.Accounted i m c)
    (hi : n.trail.lits.toList[i]? = some m) (hpos : 0 < n.trail.levelOf m.var)
    (hreason : n.trail.reasonOf m.var = some h) (hc : n.store.get? h = some c)
    (has : c.antecedents n.trail true = .ok as) : n.Regular i m as ∨ n.Stray i m as := by
  cases hat : c.isAtMost with
  | false =>
      obtain ⟨bs, hbs⟩ := List.head?_eq_some_iff.1 (ha.clause hat)
      obtain rfl : as = bs := by
        rw [Constraint.antecedents_clause hat has, hbs]
        rfl
      -- to be stray is, for a literal that a clause has forced, just not to be regular
      by_cases hreg : n.Regular i m as
      · exact Or.inl hreg
      · exact Or.inr ⟨⟨hi, hpos, h, c, hreason, hc, hat, hbs⟩, hreg⟩
  | true =>
      -- an at-most constraint is never learnt, so it still explains what it has forced
      obtain ⟨hex, b, hb, hbi, hlev⟩ := ha.atMost hat
      obtain ⟨k, hk⟩ := Constraint.isAtMost_eq_true.1 hat
      obtain rfl := Constraint.antecedents_atMost hk has
      refine Or.inl ⟨fun a haa => ?_, b.neg, List.mem_map_of_mem (List.mem_filter.2 ⟨hb, ?_⟩), hlev⟩
      · obtain ⟨l, hl, rfl⟩ := List.mem_map.1 haa
        obtain ⟨hl, htrue⟩ := List.mem_filter.1 hl
        refine ⟨l, ((hex.atMost k hk).2.2 l hl).resolve_right fun hno => ?_, rfl⟩
        exact hv.neg_not_mem ((hv.truth_yes l).1 (by simpa using htrue)) hno.1
      · simpa using (hv.truth_yes b).2 (List.mem_of_mem_take hbi)

end Network

namespace Constraint

/-- Antecedents are about the variables of the constraint. -/
theorem exists_of_mem_antecedents {c : Constraint} {t : Trail} {skip : Bool} {as : List Lit}
    (has : c.antecedents t skip = .ok as) : ∀ a ∈ as, ∃ b ∈ c.lits.toList, b.var = a.var := by
  intro a haa
  cases hat : c.isAtMost with
  | false =>
      obtain rfl := antecedents_clause hat has
      refine ⟨a, ?_, rfl⟩
      split at haa
      next => exact List.mem_of_mem_tail haa
      next => exact haa
  | true =>
      obtain ⟨k, hk⟩ := isAtMost_eq_true.1 hat
      obtain rfl := antecedents_atMost hk has
      obtain ⟨b, hb, rfl⟩ := List.mem_map.1 haa
      exact ⟨b, (List.mem_filter.1 hb).1, rfl⟩

end Constraint

namespace Derivation

variable {n : Network} {i : Nat} {as : List Lit} {a l : Lit} {d d' : Derivation} {h : Handle}

/-! ## Taking literals -/

/-- The literals that a derivation has collected, whatever was marked when it began. Where there are
stray literals, they are grounded. -/
structure Collected (n : Network) (d : Derivation) : Prop where
  lits : ∀ l ∈ d.lits.toList, l.var.index < n.trail.varCount ∧
    n.trail.levelOf l.var < n.trail.level
  distinct : (d.lits.toList.map Lit.var).Nodup
  marked : ∀ l ∈ d.lits.toList, d.marks.markOf l.var ≠ .clear
  grounded : ∀ {j m bs}, n.Stray j m bs → n.trail.levelOf m.var < n.trail.level →
    n.Grounded (n.trail.levelOf m.var) d.lits.toList

/-- Taking a known literal collects one that is new, whatever the marks said before. -/
theorem Collected.takes (h : Collected n d) (hknown : a.var.index < n.trail.varCount)
    (hground : ∀ {j m bs}, n.Stray j m bs → n.trail.levelOf m.var < n.trail.level →
      n.trail.levelOf a.var ≤ n.trail.levelOf m.var → n.trail.Has a.var)
    (ht : Takes n.trail d a d') : Collected n d' := by
  have hgrow := ht.marked.2
  cases ht with
  | again => exact h
  | ground => exact h
  | current => exact ⟨h.lits, h.distinct, fun l hl => hgrow _ (h.marked l hl), h.grounded⟩
  | @lower marks _ hclear hmarks _ hlevel =>
      -- what is collected anew had no mark, so its variable was not collected before
      have hmem : ∀ l, l ∈ (d.lits.push a).toList ↔ l ∈ d.lits.toList ∨ l = a := by simp
      refine ⟨fun l hl => ?_, ?_, fun l hl => ?_, fun hst hlt l hl hle => ?_⟩
      · rcases (hmem l).1 hl with hl | rfl
        · exact h.lits l hl
        · exact ⟨hknown, hlevel⟩
      · rw [Array.toList_push, List.map_append, List.nodup_append]
        refine ⟨h.distinct, by simp, ?_⟩
        rintro v hvl u hu rfl
        obtain ⟨l, hl, rfl⟩ := List.mem_map.1 hvl
        exact h.marked l hl ((by simpa using hu : l.var = a.var) ▸ hclear)
      · rcases (hmem l).1 hl with hl | rfl
        · exact hgrow _ (h.marked l hl)
        · exact ne_clear_self hmarks
      · rcases (hmem l).1 hl with hl | rfl
        · exact h.grounded hst hlt l hl hle
        · exact hground hst hlt hle

/-- A variable that stands below position `i` is pending only if it is counted there. -/
theorem pending_le_of_takes (hv : n.trail.Valid)
    (hp : d.pending ≤ (n.trail.lits.toList.take i).countP (isOpen n.trail d.marks))
    (hbefore : ∃ b ∈ n.trail.lits.toList.take i, b.var = a.var) (ht : Takes n.trail d a d') :
    d'.pending ≤ (n.trail.lits.toList.take i).countP (isOpen n.trail d'.marks) := by
  obtain ⟨b, hb, hba⟩ := hbefore
  cases ht with
  | again => exact hp
  | ground => exact hp
  | current hclear hmarks hlevel =>
      have hle := hv.levelOf_le (List.mem_of_mem_take hb)
      rw [hba] at hle
      rw [countP_of_current hmarks hv hb hba hclear (Nat.le_antisymm hle hlevel)]
      simpa using Int.add_le_add_right hp 1
  | lower _ hmarks _ hlevel => rwa [countP_of_lower hmarks hlevel]

/-- The same for the literals of a list. -/
theorem collected_of_takeLits (h : Collected n d) (hknown : ∀ a ∈ as, a.var.index < n.trail.varCount)
    (hground : ∀ {j m bs}, n.Stray j m bs → n.trail.levelOf m.var < n.trail.level →
      n.Grounded (n.trail.levelOf m.var) as)
    (ht : as.foldlM (takeLit n.trail) d = .ok d') : Collected n d' := by
  -- by induction on what is left of the list; all of it belongs to `as`
  let P : List Lit → Derivation → Prop := fun rest d₁ => Collected n d₁ ∧ ∀ a ∈ rest, a ∈ as
  have hend : P [] d' := foldlM_ok P (fun a rest d₁ d₂ h₁ htake => by
    have ha := h₁.2 a (by simp)
    exact ⟨h₁.1.takes (hknown a ha) (fun hst hlt hle => hground hst hlt a ha hle)
      (takes_of_takeLit htake), fun b hb => h₁.2 b (List.mem_cons_of_mem _ hb)⟩)
    ⟨h, fun _ => id⟩ ht
  exact hend.1

/-- Taking literals that stand below position `i` never makes more pending than are counted
there. -/
theorem pending_le_of_takeLits (hv : n.trail.Valid)
    (hp : d.pending ≤ (n.trail.lits.toList.take i).countP (isOpen n.trail d.marks))
    (hbefore : ∀ a ∈ as, ∃ b ∈ n.trail.lits.toList.take i, b.var = a.var)
    (ht : as.foldlM (takeLit n.trail) d = .ok d') :
    d'.pending ≤ (n.trail.lits.toList.take i).countP (isOpen n.trail d'.marks) := by
  let P : List Lit → Derivation → Prop := fun rest d₁ =>
    d₁.pending ≤ (n.trail.lits.toList.take i).countP (isOpen n.trail d₁.marks) ∧
      ∀ a ∈ rest, a ∈ as
  have hend : P [] d' := foldlM_ok P (fun a rest d₁ d₂ h₁ htake =>
    ⟨pending_le_of_takes hv h₁.1 (hbefore a (h₁.2 a (by simp))) (takes_of_takeLit htake),
      fun b hb => h₁.2 b (List.mem_cons_of_mem _ hb)⟩) ⟨hp, fun _ => id⟩ ht
  exact hend.1

/-! ## Walking down the trail -/

/-- A derivation that has come down to position `i`: a marked literal of the current level is
ahead, and as many as are pending unless the stray literal of the level was passed. -/
structure Walking (n : Network) (i : Nat) (d : Derivation) : Prop extends Collected n d where
  left : ∃ m ∈ n.trail.lits.toList.take i, isOpen n.trail d.marks m = true
  paced : d.pending ≤ (n.trail.lits.toList.take i).countP (isOpen n.trail d.marks) ∨
    ∀ {j m bs}, n.Stray j m bs → n.trail.levelOf m.var = n.trail.level → i ≤ j

/-- Taking literals that stand below position `i`, one of them of the current level. -/
theorem walking_of_takeLits (hv : n.trail.Valid) (hlevel : 0 < n.trail.level) (h : Collected n d)
    (hpaced : d.pending ≤ (n.trail.lits.toList.take i).countP (isOpen n.trail d.marks) ∨
      ∀ {j m bs}, n.Stray j m bs → n.trail.levelOf m.var = n.trail.level → i ≤ j)
    (hbefore : ∀ a ∈ as, ∃ b ∈ n.trail.lits.toList.take i, b.var = a.var)
    (hcur : ∃ a ∈ as, n.trail.levelOf a.var = n.trail.level)
    (ht : as.foldlM (takeLit n.trail) d = .ok d') : Walking n i d' := by
  have hhas : ∀ a ∈ as, n.trail.Has a.var := fun a ha =>
    (hbefore a ha).imp fun _ hb => ⟨List.mem_of_mem_take hb.1, hb.2⟩
  refine ⟨collected_of_takeLits h (fun a ha => ?_) (fun _ _ a ha _ => hhas a ha) ht, ?_,
    hpaced.imp_left fun hp => pending_le_of_takeLits hv hp hbefore ht⟩
  · obtain ⟨b, hb, hba⟩ := hhas a ha
    exact hba ▸ hv.lt_varCount hb
  · obtain ⟨a, ha, hlev⟩ := hcur
    obtain ⟨b, hb, hba⟩ := hbefore a ha
    refine ⟨b, hb, isOpen_eq_true.2 ⟨hba ▸ hlev, ?_⟩⟩
    rw [hba]
    exact ((marked_of_takeLits ht).1 a ha).resolve_left (by omega)

/-- The clause of the stray literal of the current level is taken, while other marked literals are
ahead. -/
theorem walking_of_stray {m : Lit} (hl : n.Layered) (h : Collected n d)
    (hknown : ∀ a ∈ as, a.var.index < n.trail.varCount) (hst : n.Stray i m as)
    (hlev : n.trail.levelOf m.var = n.trail.level)
    (hleft : ∃ b ∈ n.trail.lits.toList.take i, isOpen n.trail d.marks b = true)
    (ht : as.foldlM (takeLit n.trail) d = .ok d') : Walking n i d' := by
  refine ⟨collected_of_takeLits h hknown (fun hst' hlt => hl.grounded hst' hst (hlev ▸ hlt)) ht, ?_,
    Or.inr fun hst' hlev' => Nat.le_of_eq (hl.single hst hst' (hlev.trans hlev'.symm))⟩
  obtain ⟨b, hb, hbo⟩ := hleft
  obtain ⟨hbl, hbm⟩ := isOpen_eq_true.1 hbo
  exact ⟨b, hb, isOpen_eq_true.2 ⟨hbl, (marked_of_takeLits ht).2 _ hbm⟩⟩

/-- The walk has not left the current level. -/
theorem Walking.level_eq (h : Walking n (i + 1) d) (hv : n.trail.Valid)
    (hi : n.trail.lits.toList[i]? = some l) : n.trail.levelOf l.var = n.trail.level := by
  obtain ⟨m, hm, hmo⟩ := h.left
  refine Nat.le_antisymm (hv.levelOf_le (List.mem_of_getElem? hi)) ?_
  rw [← (isOpen_eq_true.1 hmo).1]
  rcases (Trail.mem_take_succ hi).1 hm with hm | rfl
  · exact hv.levelOf_le_of_mem_take hm hi
  · exact Nat.le_refl _

/-- Passing a literal without a mark. -/
theorem Walking.pass (h : Walking n (i + 1) d) (hi : n.trail.lits.toList[i]? = some l)
    (hclear : d.marks.markOf l.var = .clear) : Walking n i d := by
  -- a literal without a mark was neither the one ahead nor counted
  have hno : isOpen n.trail d.marks l = false := by simp [isOpen, hclear]
  refine { h with left := ?_, paced := h.paced.imp (fun hp => ?_) fun hlate _ _ _ hst hlev =>
    Nat.le_of_succ_le (hlate hst hlev) }
  · obtain ⟨m, hm, hmo⟩ := h.left
    rcases (Trail.mem_take_succ hi).1 hm with hm | rfl
    · exact ⟨m, hm, hmo⟩
    · rw [hno] at hmo
      cases hmo
  · rwa [List.take_add_one, hi, Option.toList_some, List.countP_append, List.countP_singleton,
      hno, if_neg (by simp), Nat.add_zero] at hp

/-- A marked literal is set aside: what is left of the pace. -/
theorem Walking.setAside {marks : Marks} (h : Walking n (i + 1) d) (hv : n.trail.Valid)
    (hi : n.trail.lits.toList[i]? = some l) (hmark : d.marks.markOf l.var ≠ .clear)
    (hset : d.marks.set l.var .clear = .ok marks) :
    Collected n { d with marks, pending := d.pending - 1 } ∧
      (d.pending - 1 ≤ (n.trail.lits.toList.take i).countP (isOpen n.trail marks) ∨
        ∀ {j m bs}, n.Stray j m bs → n.trail.levelOf m.var = n.trail.level → i + 1 ≤ j) := by
  have hlev := h.level_eq hv hi
  refine ⟨⟨h.lits, h.distinct, fun a ha => ?_, h.grounded⟩, h.paced.imp_left fun hp => ?_⟩
  · -- what was collected is of a lower level than `l`
    have hne : a.var ≠ l.var := fun heq => by
      have := (h.lits a ha).2
      rw [heq] at this
      omega
    rw [Marks.set_eq_ok hset, if_neg hne]
    exact h.marked a ha
  · -- the count below `l` is the same, and `l` itself made up for what is pending
    have hcount : (n.trail.lits.toList.take i).countP (isOpen n.trail marks) =
        (n.trail.lits.toList.take i).countP (isOpen n.trail d.marks) :=
      List.countP_congr fun m hm => by
        simp only [isOpen, Marks.set_eq_ok hset, if_neg (hv.var_ne_of_mem_take hi hm)]
    rw [List.take_add_one, hi, Option.toList_some, List.countP_append, List.countP_singleton,
      if_pos (isOpen_eq_true.2 ⟨hlev, hmark⟩)] at hp
    rw [hcount]
    omega

/-- The walk ends with a literal of the current level. -/
theorem collected_of_resolve {dead : Lit → Prop} {line : Lit → List Watcher}
    (ha : n.Aligned dead line) (hl : n.Layered) (hr : n.Reasoned) (hlevel : 0 < n.trail.level) :
    ∀ {i : Nat} {d d' : Derivation} {l : Lit}, Walking n i d →
      d.resolve n.store n.trail i = .ok (l, d') →
      l ∈ n.trail ∧ n.trail.levelOf l.var = n.trail.level ∧ Collected n d' := by
  have hv := ha.trail
  -- by induction on the position, with `Walking` as the invariant
  intro i
  induction i with
  | zero =>
      intro d d' l _ h
      simp [resolve, throw_ne_ok] at h
  | succ i ih =>
      intro d d' l hw h
      simp only [resolve, bind_eq_ok, Trail.litAt_eq_ok] at h
      obtain ⟨m, hi, x, hx, h⟩ := h
      have hmark := Marks.of_eq_ok hx
      have hlev := hw.level_eq hv hi
      split at h
      next hclear => exact ih (hw.pass hi (hmark.trans hclear)) h
      next hmarked =>
          simp only [bind_eq_ok] at h
          obtain ⟨marks, hset, h⟩ := h
          obtain ⟨hg, hpaced⟩ := hw.setAside hv hi (by rwa [hmark]) hset
          split at h
          next =>
              simp only [pure_eq_ok, Prod.mk.injEq] at h
              obtain ⟨rfl, rfl⟩ := h
              exact ⟨List.mem_of_getElem? hi, hlev, hg⟩
          next hleft =>
              simp only [bind_eq_ok, Trail.cell_eq_ok] at h
              obtain ⟨cell, ⟨-, rfl⟩, h⟩ := h
              split at h
              next => simp [throw_ne_ok] at h
              next a hreason =>
                  simp only [takeConstraint, bind_eq_ok, Store.fetch_eq_ok] at h
                  obtain ⟨d₂, ⟨c, hc, as, has, htake⟩, h⟩ := h
                  refine ih ?_ h
                  have hacc := (hr i m a hi (by omega) hreason).2 c hc
                  have hg' : Collected n { d with
                      marks, pending := d.pending - 1, constraints := d.constraints.push a } :=
                    { hg with }
                  rcases Network.antecedents_of_accounted hv hacc hi (by omega) hreason hc has with
                    hreg | hst
                  · obtain ⟨b, hb, hbl⟩ := hreg.prompted
                    exact walking_of_takeLits hv hlevel hg' (hpaced.imp_right fun hlate _ _ _ hs he =>
                      Nat.le_of_succ_le (hlate hs he)) hreg.before ⟨b, hb, hbl.trans hlev⟩ htake
                  · -- the stray literal was not passed before, so the pace still holds
                    have hp := hpaced.resolve_right fun hlate => by
                      have := hlate hst hlev
                      omega
                    have hsome : 0 < (n.trail.lits.toList.take i).countP (isOpen n.trail marks) := by
                      omega
                    refine walking_of_stray hl hg' (fun b hb => ?_) hst hlev
                      (List.countP_pos_iff.1 hsome) htake
                    obtain ⟨b', hb', hbv⟩ := Constraint.exists_of_mem_antecedents has b hb
                    exact hbv ▸ (ha.formed hc).known b' hb'

end Derivation

namespace Analysis

variable {n : Network} {store : Store} {t : Trail}

/-- Minimisation leaves out literals, whatever is marked. -/
theorem sublist_of_dropRedundant : ∀ {rest : List Lit} {kept ls : Array Lit} {p p' : Probe},
    dropRedundant store t rest kept p = .ok (ls, p') →
      ∃ ks, ls.toList = kept.toList ++ ks ∧ ks.Sublist rest := by
  intro rest
  induction rest with
  | nil =>
      intro kept ls p p' h
      simp only [dropRedundant, pure_eq_ok, Prod.mk.injEq] at h
      obtain ⟨rfl, -⟩ := h
      exact ⟨[], by simp, List.Sublist.refl _⟩
  | cons l rest ih =>
      intro kept ls p p' h
      simp only [dropRedundant, bind_eq_ok] at h
      obtain ⟨⟨b, p₁⟩, -, h⟩ := h
      cases b with
      | true =>
          obtain ⟨ks, hls, hsub⟩ := ih h
          exact ⟨ks, hls, hsub.cons l⟩
      | false =>
          obtain ⟨ks, hls, hsub⟩ := ih h
          exact ⟨l :: ks, by simpa using hls, hsub.cons_cons l⟩

/-- In every mode the first literal stays and the others are a sublist, whatever was marked when the
analysis began. -/
theorem sublist_of_minimise {m : Minimisation} {marks marks' : Marks} {first : Lit}
    {rest : List Lit} {ls : Array Lit}
    (h : minimise m store t marks first rest = .ok (ls, marks')) :
    ∃ kept, ls.toList = first :: kept ∧ kept.Sublist rest := by
  cases m with
  | never =>
      simp only [minimise, bind_eq_ok, pure_eq_ok, Prod.mk.injEq] at h
      obtain ⟨marks₁, -, rfl, -⟩ := h
      exact ⟨rest, by simp, List.Sublist.refl _⟩
  | basic =>
      simp only [minimise, bind_eq_ok, pure_eq_ok, Prod.mk.injEq] at h
      obtain ⟨kept, hkept, marks₁, -, rfl, -⟩ := h
      -- one pass over the literals, with the same marks for all of them
      have hfilter : kept = rest.filter fun l =>
          !decide (directlyRedundant store t marks l = .ok true) := by
        refine filterM_ok (fun a _ r hr => ?_) hkept
        simp only [bind_eq_ok, pure_eq_ok] at hr
        obtain ⟨b, hb, rfl⟩ := hr
        cases b <;> simp [hb]
      exact ⟨kept, by simp, hfilter ▸ List.filter_sublist⟩
  | deep =>
      simp only [minimise, bind_eq_ok, pure_eq_ok, Prod.mk.injEq] at h
      obtain ⟨⟨ls₁, p⟩, hdrop, marks₁, -, rfl, -⟩ := h
      obtain ⟨ks, hls, hsub⟩ := sublist_of_dropRedundant hdrop
      exact ⟨ks, by simpa using hls, hsub⟩

/-- A clause of a literal of the current level and others that were collected can be learnt on the
highest level of these. -/
theorem learnable_of_lesson {first : Lit} {rest kept : List Lit} {ls lits : Array Lit} {r : Nat}
    (hls : ls.toList = first :: kept) (hsub : kept.Sublist rest)
    (hknown : first.var.index < n.trail.varCount)
    (hcur : n.trail.levelOf first.var = n.trail.level)
    (hrest : ∀ l ∈ rest, l.var.index < n.trail.varCount ∧
      n.trail.levelOf l.var < n.trail.level)
    (hnd : (rest.map Lit.var).Nodup)
    (hground : ∀ {j m bs}, n.Stray j m bs → n.trail.levelOf m.var < n.trail.level →
      n.Grounded (n.trail.levelOf m.var) rest)
    (h : lesson n.trail ls = .ok (.clause r lits)) :
    n.Learnable r lits.toList ∧ r < n.trail.level := by
  have hsize : ls.size = kept.length + 1 := by rw [← Array.length_toList, hls, List.length_cons]
  simp only [lesson] at h
  split at h
  next =>
      simp only [bind_eq_ok, pure_eq_ok] at h
      obtain ⟨_, -, hno⟩ := h
      cases hno
  next hmore =>
      simp only [bind_eq_ok, pure_eq_ok] at h
      obtain ⟨⟨i, level⟩, hhigh, heq⟩ := h
      obtain ⟨rfl, rfl⟩ := Lesson.clause.inj heq
      -- the literal of the highest level among the others is moved to the second place
      obtain ⟨hi, ⟨l, hl, hlev⟩, hmax⟩ := highestLevel_eq_ok hhigh
      have hilt : i < ls.size := by simpa using (List.getElem?_eq_some_iff.1 hl).1
      obtain ⟨⟨ks, hks, hperm⟩, -⟩ := swapped_second hls (by omega) hi hilt
      have hkept : ∀ m ∈ ks, m ∈ rest := fun m hm => hsub.subset (hperm.mem_iff.1 hm)
      have hle : ∀ m ∈ ks, n.trail.levelOf m.var ≤ level := fun m hm => by
        obtain ⟨j, hj⟩ := List.mem_iff_getElem?.1 (hperm.mem_iff.1 hm)
        exact hmax (j + 1) m (by omega) (by rw [hls]; simpa using hj)
      have hmem : l ∈ ks := by
        rw [hls] at hl
        obtain ⟨j, rfl⟩ : ∃ j, i = j + 1 := ⟨i - 1, by omega⟩
        exact hperm.mem_iff.2 (List.mem_of_getElem? (by simpa using hl))
      have hlt : level < n.trail.level := hlev ▸ (hrest l (hkept l hmem)).2
      refine ⟨⟨?_, ?_, fun m hm => ?_, fun hst hle' => ?_⟩, hlt⟩
      · have := hperm.length_eq
        rw [hks, List.length_cons]
        omega
      · rw [hks, List.map_cons, List.nodup_cons]
        refine ⟨fun hfirst => ?_,
          ((hperm.map Lit.var).nodup_iff).2 (hnd.sublist (hsub.map Lit.var))⟩
        obtain ⟨m, hm, hmv⟩ := List.mem_map.1 hfirst
        have := (hrest m (hkept m hm)).2
        rw [hmv] at this
        omega
      · rw [hks] at hm
        rcases List.mem_cons.1 hm with rfl | hm
        · exact hknown
        · exact (hrest m (hkept m hm)).1
      · rw [hks, List.tail_cons]
        exact ⟨fun a ha => hground hst (Nat.lt_of_le_of_lt hle' hlt) a (hkept a ha),
          fun _ => ⟨hle, l, hmem, hlev⟩⟩

/-- The clause that a conflict teaches can be learnt below the current level. -/
theorem learnable_of_analyze {dead : Lit → Prop} {line : Lit → List Watcher} {a a' : Analysis}
    {failed : Handle} {x : Explanation} {r : Nat} {lits : Array Lit} (ha : n.Aligned dead line)
    (hl : n.Layered) (hr : n.Reasoned) (hconf : n.Conflict failed)
    (h : a.analyze n.store n.trail failed = .ok (x, a')) (hx : x.lesson = .clause r lits) :
    n.Learnable r lits.toList ∧ r < n.trail.level := by
  have hv := ha.trail
  simp only [analyze] at h
  split at h
  next =>
      simp only [pure_eq_ok, Prod.mk.injEq] at h
      obtain ⟨rfl, -⟩ := h
      cases hx
  next hgr =>
      have hlevel : 0 < n.trail.level := by
        simp only [Trail.isGround, beq_iff_eq] at hgr
        omega
      simp only [bind_eq_ok, pure_eq_ok] at h
      obtain ⟨d₀, htake, ⟨last, d⟩, hres, ⟨ls, marks⟩, hmin, lesson, hlesson, heq⟩ := h
      obtain ⟨rfl, -⟩ := Prod.mk.inj heq
      obtain rfl := hx
      simp only [Derivation.takeConstraint, bind_eq_ok, Store.fetch_eq_ok] at htake
      obtain ⟨c, hc, as, has, htake⟩ := htake
      obtain ⟨hbefore, hcur⟩ := Network.antecedents_of_conflict hv hconf hc has
      -- the walk begins with nothing collected, and nothing pending but what the conflict brings
      have hw : Derivation.Walking n n.trail.lits.size d₀ := by
        refine Derivation.walking_of_takeLits hv hlevel ⟨by simp, by simp, by simp, ?_⟩ (Or.inl ?_)
          hbefore hcur htake
        · intro j m bs _ _ a haa
          simp at haa
        · exact Int.natCast_nonneg _
      obtain ⟨hlast, hlev, hg⟩ := Derivation.collected_of_resolve ha hl hr hlevel hw hres
      obtain ⟨kept, hls, hsub⟩ := sublist_of_minimise hmin
      have hknown : last.neg.var.index < n.trail.varCount := hv.lt_varCount (l := last) hlast
      exact learnable_of_lesson hls hsub hknown hlev hg.lits hg.distinct hg.grounded hlesson

end Analysis

end CardSat
