import CardSat.Database
import CardSat.Proofs.Network.Removal

set_option autoImplicit false

/-! # Sweeping the database

A sweep goes through a list of constraints and keeps or frees each of them. `Sweeping` is its
invariant with the handles `rest` still to come, while the constraints of another list stay as they
are; the three things that can happen to a constraint keep it (`Sweeping.keep`, `Sweeping.drop`,
`Sweeping.strengthen`).

Freeing a constraint is the delicate one. Its watchers stay on their lines until the lines are
cleaned, so the network with the constraint gone is sane only since a watcher may name a freed
constraint on a line that is dirty. And where it is the reason of a variable, that variable loses
its reason: only then does the trail change (`cleared_of_foldlM`).
-/

namespace CardSat

namespace Database

namespace Sweep

/-- The network with the store and the trail of a sweep. -/
def network (s : Sweep) (n : Network) : Network := { n with store := s.store, trail := s.trail }

end Sweep

/-- A constraint is the reason for a literal that has a value and names it. -/
theorem isReasonFor_eq_ok {t : Trail} {h : Handle} {l : Lit} {b : Bool}
    (hb : t.isReasonFor h l = .ok b) :
    b = true ↔ t.truth l ≠ .unset ∧ t.reasonOf l.var = some h := by
  simp only [Trail.isReasonFor, bind_eq_ok, pure_eq_ok, Trail.cell_eq_ok] at hb
  obtain ⟨c, ⟨-, rfl⟩, rfl⟩ := hb
  rw [ne_eq, ← Trail.isUnset_iff]
  simp [Trail.reasonOf]

variable {n : Network} {dead : Lit → Prop} {good : Prop} {R : World → Prop}
  {strengthened : Prop} {gone : Handle → Constraint → Prop} {others rest : List Handle}
  {s s' : Sweep} {h : Handle} {c c' : Constraint}

/-! ## Freeing one constraint -/

/-- What freeing a constraint does to the trail. -/
theorem cleared_of_foldlM {t t' : Trail} {ls : List Lit}
    (hf : ls.foldlM (fun (t : Trail) l => do
      if ← t.isReasonFor h l then t.clearReason l.var else return t) t = .ok t') :
    t.Cleared t' ∧ (∀ l ∈ ls, t'.truth l ≠ .unset → t'.reasonOf l.var ≠ some h) ∧
      ((∀ l ∈ ls, t.truth l ≠ .unset → t.reasonOf l.var ≠ some h) → t' = t) := by
  -- of the literals that were gone through, none has the constraint as its reason any more
  let P : List Lit → Trail → Prop := fun rest t₁ =>
    t.Cleared t₁ ∧ (∀ l ∈ ls, l ∈ rest ∨ (t₁.truth l ≠ .unset → t₁.reasonOf l.var ≠ some h)) ∧
      (∀ l ∈ rest, l ∈ ls) ∧
      ((∀ l ∈ ls, t.truth l ≠ .unset → t.reasonOf l.var ≠ some h) → t₁ = t)
  have hstep : ∀ l rest t₁ t₂, P (l :: rest) t₁ →
      (do if ← t₁.isReasonFor h l then t₁.clearReason l.var else return t₁ : Checked Trail)
        = .ok t₂ → P rest t₂ := by
    rintro l rest t₁ t₂ ⟨hc, hdone, hsub, hsame⟩ hstep
    have hsub' : ∀ m ∈ rest, m ∈ ls := fun m hm => hsub m (List.mem_cons_of_mem _ hm)
    simp only [bind_eq_ok] at hstep
    obtain ⟨b, hb, hstep⟩ := hstep
    have hreason := isReasonFor_eq_ok hb
    split at hstep
    next hyes =>
        have hc₁ := Trail.cleared_of_clearReason hstep
        have hcell := Trail.cellOf_clearReason hstep
        refine ⟨hc.trans hc₁, fun m hm => ?_, hsub', fun hno => ?_⟩
        · by_cases hml : m.var = l.var
          · refine Or.inr fun _ => ?_
            rw [Trail.reasonOf, hcell, if_pos hml]
            simp
          · rcases hdone m hm with hmr | hmr
            · rcases List.mem_cons.1 hmr with rfl | hmr
              · exact absurd rfl hml
              · exact Or.inl hmr
            · refine Or.inr fun htr => ?_
              rw [Trail.reasonOf, hcell, if_neg hml]
              exact hmr (by rwa [hc₁.truth] at htr)
        · obtain rfl := hsame hno
          exact absurd (hreason.1 hyes).2 (hno l (hsub l (by simp)) (hreason.1 hyes).1)
    next hno =>
        obtain rfl := pure_eq_ok.1 hstep
        refine ⟨hc, fun m hm => ?_, hsub', hsame⟩
        rcases hdone m hm with hmr | hmr
        · rcases List.mem_cons.1 hmr with rfl | hmr
          · exact Or.inr fun htr hr => hno (hreason.2 ⟨htr, hr⟩)
          · exact Or.inl hmr
        · exact Or.inr hmr
  obtain ⟨hc, hdone, -, hsame⟩ := foldlM_ok P hstep
    ⟨.refl t, fun l hl => Or.inl hl, fun l hl => hl, fun _ => rfl⟩ hf
  exact ⟨hc, fun l hl => (hdone l hl).resolve_left (by simp), hsame⟩

/-- Freeing a constraint takes it out of the network, and takes the reasons that name it. -/
theorem frees_of_drop {line : Lit → List Watcher} (hs : (s.network n).Sane dead line)
    (hc : s.store.get? h = some c) (hd : s.drop h c = .ok s') :
    (s.network n).Frees (s'.network n) h ∧ s'.kept = s.kept ∧
      s'.removed = s.removed.push (h, c) ∧
      ((∀ l ∈ c.lits.toList, s.trail.truth l ≠ .unset → s.trail.reasonOf l.var ≠ some h) →
        s'.trail = s.trail) := by
  simp only [Sweep.drop, bind_eq_ok, pure_eq_ok] at hd
  obtain ⟨trail, htrail, store, hstore, rfl⟩ := hd
  obtain ⟨hsize, hget⟩ := Store.free_eq_ok hstore
  obtain ⟨hcl, hdone, hsame⟩ := cleared_of_foldlM htrail
  refine ⟨⟨hsize, hget, hcl, fun m hm hr => ?_⟩, rfl, rfl, hsame⟩
  -- a literal with this reason has the variable of a literal of the constraint
  have hv : trail.Valid := hcl.valid hs.trail
  have hm' : m ∈ s.trail := hcl.mem_iff.1 hm
  have hr' : s.trail.reasonOf m.var = some h := by
    rcases hcl.reason m.var with heq | hnone
    · rw [← heq]
      exact hr
    · rw [show trail.reasonOf m.var = some h from hr] at hnone
      cases hnone
  obtain ⟨i, hi⟩ := List.mem_iff_getElem?.1 hm'
  obtain ⟨d, hd, he⟩ := hs.reasons i m h hi hr'
  obtain rfl := Option.some.inj (hc.symm.trans hd)
  have htm : trail.truth m = .yes := (hv.truth_yes m).2 hm
  cases ha : c.isAtMost with
  | false =>
      have hmc := List.mem_of_head? (he.clause ha).1
      exact hdone m hmc (by rw [htm]; decide) hr
  | true =>
      obtain ⟨k, hk⟩ := Constraint.isAtMost_eq_true.1 ha
      have hmc := (he.atMost k hk).1
      exact hdone m.neg hmc (by rw [Trail.truth_neg, htm]; decide) hr

/-! ## The invariant -/

/-- The invariant of a sweep. -/
structure Sweeping (n : Network) (dead : Lit → Prop) (good : Prop) (R : World → Prop)
    (strengthened : Prop) (gone : Handle → Constraint → Prop) (others rest : List Handle)
    (s : Sweep) : Prop where
  sane : (s.network n).Sane dead n.index.line
  sound : (s.network n).Sound R
  watching : good → (s.network n).Watching fun _ _ => False
  thinned : n.Thinned (s.network n) strengthened gone
  untouched : ∀ a ∈ others ++ rest, s.store.get? a = n.store.get? a
  nodup : (others ++ s.kept.toList ++ rest).Nodup
  live : ∀ a d, s.store.get? a = some d → a ∈ others ++ s.kept.toList ++ rest
  removed : ∀ x ∈ s.removed.toList, s.store.get? x.1 = none
  kept : ∀ a ∈ s.kept.toList, ∃ d, s.store.get? a = some d
  accounted : ∀ a d, n.store.get? a = some d → s.store.get? a = none → (a, d) ∈ s.removed.toList

namespace Sweeping

/-- A sweep that has kept nothing yet. -/
theorem start (hs : (s.network n).Sane dead n.index.line) (hr : (s.network n).Sound R)
    (hw : good → (s.network n).Watching fun _ _ => False) (hkept : s.kept = #[])
    (hnd : (others ++ rest).Nodup)
    (hlive : ∀ a d, s.store.get? a = some d → a ∈ others ++ rest)
    (hrem : ∀ x ∈ s.removed.toList, s.store.get? x.1 = none) :
    Sweeping (s.network n) dead good R strengthened gone others rest s where
  sane := hs
  sound := hr
  watching := hw
  thinned := .refl _
  untouched _ _ := rfl
  nodup := by simpa [hkept] using hnd
  live a d hd := by simpa [hkept] using hlive a d hd
  removed := hrem
  kept := by simp [hkept]
  accounted a d hd hno := by
    have hd' : s.store.get? a = some d := hd
    rw [hno] at hd'
    cases hd'

/-- Keeping a constraint moves its handle and loses none. -/
theorem mem_swap {a : Handle} {s : Sweep} :
    a ∈ others ++ (s.keep h).kept.toList ++ rest ↔
      a ∈ others ++ s.kept.toList ++ h :: rest := by
  simp [Sweep.keep]

/-- The constraint that comes next is none of the others. -/
theorem not_mem (hsw : Sweeping n dead good R strengthened gone others (h :: rest) s) :
    h ∉ others ++ s.kept.toList ++ rest := by
  have hnd := hsw.nodup
  rw [List.nodup_middle, List.nodup_cons] at hnd
  exact hnd.1

/-- A constraint that is not treated now is as it was. -/
theorem later {a : Handle} (hsw : Sweeping n dead good R strengthened gone others (h :: rest) s)
    (ha : a ∈ others ++ rest) : a ≠ h ∧ s.store.get? a = n.store.get? a := by
  have hnew := hsw.not_mem
  have hsame := hsw.untouched a
  simp only [List.mem_append, List.mem_cons] at ha hnew hsame
  refine ⟨?_, hsame (ha.imp_right Or.inr)⟩
  rintro rfl
  exact hnew (ha.imp_left Or.inl)

/-- A constraint that is kept changes nothing in the network. -/
theorem keep (hsw : Sweeping n dead good R strengthened gone others (h :: rest) s)
    (hc : s.store.get? h = some c) :
    Sweeping n dead good R strengthened gone others rest (s.keep h) where
  sane := hsw.sane
  sound := hsw.sound
  watching := hsw.watching
  thinned := hsw.thinned
  untouched a ha := (hsw.later ha).2
  nodup := by simpa [Sweep.keep] using hsw.nodup
  live a d hd := mem_swap.2 (hsw.live a d hd)
  removed := hsw.removed
  kept a ha := by
    rcases List.mem_append.1 (by simpa [Sweep.keep] using ha : a ∈ s.kept.toList ++ [h]) with ha | ha
    · exact hsw.kept a ha
    · exact ⟨c, List.mem_singleton.1 ha ▸ hc⟩
  accounted := hsw.accounted

/-- A constraint that may be gone can be freed. -/
theorem drop (hsw : Sweeping n dead good R strengthened gone others (h :: rest) s)
    (hc : s.store.get? h = some c) (hgone : gone h c) (hd : s.drop h c = .ok s') :
    Sweeping n dead good R strengthened gone others rest s' := by
  obtain ⟨hf, hkept, hremoved, -⟩ := frees_of_drop hsw.sane hc hd
  have hget : ∀ a, s'.store.get? a = if a = h then none else s.store.get? a := hf.get?
  -- only the handle that is dropped reads differently: each field is a case split on it
  refine ⟨hsw.sane.frees hf, hsw.sound.frees hf, fun hg => (hsw.watching hg).frees hf,
    ⟨hf.size.trans hsw.thinned.size, hsw.thinned.trail.trans hf.trail, hsw.thinned.index, ?_, ?_⟩,
    ?_, ?_, ?_, ?_, ?_, ?_⟩
  · exact fun a d hd => hsw.thinned.left a d (hf.of_get? hd)
  · intro a d hda hno
    by_cases ha : a = h
    · subst ha
      have hsame := hsw.untouched a (by simp)
      rw [hc, hda] at hsame
      obtain rfl := Option.some.inj hsame
      exact hgone
    · refine hsw.thinned.gone a d hda ?_
      have : s'.store.get? a = none := hno
      rwa [hget, if_neg ha] at this
  · intro a ha
    obtain ⟨hne, hsame⟩ := hsw.later ha
    rw [hget, if_neg hne, hsame]
  · have hnd := hsw.nodup
    rw [List.nodup_middle, List.nodup_cons] at hnd
    rw [hkept]
    exact hnd.2
  · intro a d hd
    rw [hget] at hd
    split at hd
    next => cases hd
    next hne =>
        have hmem := hsw.live a d hd
        rw [hkept]
        simp only [List.mem_append, List.mem_cons] at hmem ⊢
        rcases hmem with hmem | rfl | hmem
        · exact Or.inl hmem
        · exact absurd rfl hne
        · exact Or.inr hmem
  · intro x hx
    rw [hremoved, Array.toList_push] at hx
    rw [hget]
    split
    next => rfl
    next hne =>
        rcases List.mem_append.1 hx with hx | hx
        · exact hsw.removed x hx
        · exact absurd (congrArg Prod.fst (List.mem_singleton.1 hx)) hne
  · intro a ha
    rw [hkept] at ha
    have hne : a ≠ h := by
      rintro rfl
      exact hsw.not_mem (List.mem_append_left _ (List.mem_append_right _ ha))
    rw [hget, if_neg hne]
    exact hsw.kept a ha
  · intro a d hda hno
    rw [hremoved, Array.toList_push, List.mem_append, List.mem_singleton]
    by_cases ha : a = h
    · subst ha
      have hsame := hsw.untouched a (by simp)
      rw [hc, hda] at hsame
      exact Or.inr (Prod.ext rfl (Option.some.inj hsame).symm)
    · rw [hget, if_neg ha] at hno
      exact Or.inl (hsw.accounted a d hda hno)

/-- Strengthening a clause and keeping it. -/
theorem strengthen (hsw : Sweeping n dead good R strengthened gone others (h :: rest) s)
    (hst : strengthened) {counts : Counts}
    (hn : (s.network n).Strengthens ((⟨s.store.put h c', s.trail, counts, s.kept, s.removed⟩ :
      Sweep).network n) h c c')
    (hdead : ∀ l, l.neg ∈ s.trail → s.trail.levelOf l.var = 0 → dead l) :
    Sweeping n dead good R strengthened gone others rest
      (Sweep.keep ⟨s.store.put h c', s.trail, counts, s.kept, s.removed⟩ h) := by
  have hc : s.store.get? h = some c := hn.stored
  have hget : ∀ a, (s.store.put h c').get? a = if a = h then some c' else s.store.get? a :=
    Store.get?_put hc
  -- the handle stays in use, with fewer literals: no entry of the lists has to go
  refine ⟨hsw.sane.strengthens hn hdead, hsw.sound.strengthens hn,
    fun hg => (hsw.watching hg).strengthens hn,
    ⟨?_, hsw.thinned.trail, hsw.thinned.index, ?_, ?_⟩, ?_, ?_, ?_, ?_, ?_, ?_⟩
  · show (s.store.put h c').slots.size = _
    rw [Store.size_put]
    exact hsw.thinned.size
  · intro a d hd
    have hd' : (s.store.put h c').get? a = some d := hd
    rw [hget] at hd'
    split at hd'
    next ha =>
        obtain rfl := Option.some.inj hd'
        subst ha
        refine ⟨c, ?_, hn.kind, hn.sub, fun w => hn.holds, fun hno => absurd hst hno⟩
        rw [← hsw.untouched a (by simp)]
        exact hc
    next => exact hsw.thinned.left a d hd'
  · intro a d hd hno
    have hno' : (s.store.put h c').get? a = none := hno
    rw [hget] at hno'
    split at hno'
    next => cases hno'
    next => exact hsw.thinned.gone a d hd hno'
  · intro a ha
    obtain ⟨hne, hsame⟩ := hsw.later ha
    show (s.store.put h c').get? a = _
    rw [hget, if_neg hne, hsame]
  · simpa [Sweep.keep] using hsw.nodup
  · intro a d hd
    have hd' : (s.store.put h c').get? a = some d := hd
    rw [mem_swap]
    rw [hget] at hd'
    split at hd'
    next ha => simp [ha]
    next => exact hsw.live a d hd'
  · intro x hx
    show (s.store.put h c').get? x.1 = none
    have hnone := hsw.removed x hx
    rw [hget, if_neg, hnone]
    rintro he
    rw [he, hc] at hnone
    cases hnone
  · intro a ha
    show ∃ d, (s.store.put h c').get? a = some d
    rw [hget]
    split
    next => exact ⟨c', rfl⟩
    next hne =>
        rcases List.mem_append.1 (by simpa [Sweep.keep] using ha : a ∈ s.kept.toList ++ [h])
          with ha | ha
        · exact hsw.kept a ha
        · exact absurd (List.mem_singleton.1 ha) hne
  · intro a d hd hno
    have hno' : (s.store.put h c').get? a = none := hno
    rw [hget] at hno'
    split at hno'
    next => cases hno'
    next => exact hsw.accounted a d hd hno'

end Sweeping

end Database

end CardSat
