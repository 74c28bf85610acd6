import CardSat.Proofs.Network.Resizing
import CardSat.Proofs.Network.Storing
import CardSat.Proofs.Succeeds

set_option autoImplicit false

/-! # Tended watch lines

A constraint that is freed lazily leaves its watchers behind, on lines that are marked dirty. A
network is `Tended` if there is a line for every literal, and the watchers of freed constraints
stand on dirty lines only. So the watchers that `take` hands out watch stored constraints, and
nothing that is done with them can be refused.

This is the invariant that a lookup in the store does not fail during propagation. It is separate
from the exactness of the index, which speaks of stored constraints only. It has to be kept by
everything that frees a constraint, and there are two ways to do so: marking the lines of its keys,
or removing its watchers at once.

Lines may be cleaned at any time. Nothing promises that a dirty line holds a watcher of a freed
constraint.
-/

namespace CardSat

/-- A variable has two literals, so a table over the literals is twice as long. -/
theorem Lit.index_lt_iff {l : Lit} {n : Nat} : l.index < 2 * n ↔ l.var.index < n := by
  rw [index]
  cases l.negated
  all_goals
    simp only [Bool.toNat_false, Bool.toNat_true]
    omega

namespace WatchIndex

variable {w w' : WatchIndex} {l m : Lit} {c : Constraint} {h : Handle} {n : Nat}

/-- Whether the line of a literal may hold watchers of freed constraints. -/
def isDirty (w : WatchIndex) (l : Lit) : Bool := (w.items.getD l.index {}).dirty

/-- There is a line for every literal of the first `n` variables. -/
def Covers (w : WatchIndex) (n : Nat) : Prop := 2 * n ≤ w.items.size

/-- The literal of a known variable has a line. -/
theorem Covers.lt (hw : w.Covers n) (hl : l.var.index < n) : l.index < w.items.size :=
  Nat.lt_of_lt_of_le (Lit.index_lt_iff.2 hl) hw

/-- Changing a line, in terms of the table. -/
theorem modify_eq_ok {f : WatchLine → WatchLine} :
    w.modify l.index f = .ok w' ↔ l.index < w.items.size ∧ w' = ⟨w.items.modify l.index f⟩ := by
  simp only [DenseTable.modify]
  split
  next hlt => simp [hlt, eq_comm]
  next hlt => simp [hlt]

/-- A line that exists can be changed. -/
theorem succeeds_modify (hl : l.index < w.items.size) (f : WatchLine → WatchLine) :
    Succeeds (w.modify l.index f) := ⟨_, modify_eq_ok.2 ⟨hl, rfl⟩⟩

/-- Changing a line leaves their number. -/
theorem size_modify {f : WatchLine → WatchLine} (hm : w.modify l.index f = .ok w') :
    w'.items.size = w.items.size := by
  obtain ⟨-, rfl⟩ := modify_eq_ok.1 hm
  exact Array.size_modify

/-- Changing a line changes no other mark. -/
theorem isDirty_modify {f : WatchLine → WatchLine} (hm : w.modify l.index f = .ok w') (m : Lit) :
    w'.isDirty m = if m = l then (f (w.items.getD l.index {})).dirty else w.isDirty m := by
  obtain ⟨hlt, rfl⟩ := modify_eq_ok.1 hm
  simp only [isDirty, Array.getD_eq_getD_getElem?, Array.getElem?_modify, Lit.index_inj]
  by_cases hml : m = l
  · subst hml
    simp [hlt]
  · simp [hml, Ne.symm hml]

/-- A change of a line that leaves its mark alone. -/
theorem isDirty_of_modify {f : WatchLine → WatchLine} (hm : w.modify l.index f = .ok w')
    (hf : ∀ x, (f x).dirty = x.dirty) : w'.isDirty = w.isDirty := by
  funext m
  rw [isDirty_modify hm, hf]
  split
  next hml => rw [hml, isDirty]
  next => rfl

/-- The lines have other watchers, but their number and their marks are the same. -/
structure SameMarks (w w' : WatchIndex) : Prop where
  size : w'.items.size = w.items.size
  dirty : w'.isDirty = w.isDirty

/-- Other watchers again. -/
theorem SameMarks.trans {w'' : WatchIndex} (h : w.SameMarks w') (h' : w'.SameMarks w'') :
    w.SameMarks w'' := ⟨h'.size.trans h.size, h'.dirty.trans h.dirty⟩

/-- Adding a watcher to a line. -/
theorem sameMarks_push {x : Watcher} (hp : w.push l x = .ok w') : w.SameMarks w' :=
  ⟨size_modify hp, isDirty_of_modify hp fun _ => rfl⟩

/-- Putting a line back. -/
theorem sameMarks_restore {ws : Array Watcher} (hr : w.restore l ws = .ok w') : w.SameMarks w' :=
  ⟨size_modify hr, isDirty_of_modify hr fun _ => rfl⟩

/-- Putting a constraint on watch. -/
theorem sameMarks_watch (hw : w.watch c h = .ok w') : w.SameMarks w' := by
  simp only [watch] at hw
  split at hw
  next =>
      simp only [bind_eq_ok] at hw
      obtain ⟨ls, -, hw⟩ := hw
      exact foldlM_ok (fun _ w₁ => w.SameMarks w₁) (fun _ _ _ _ h₁ h₂ => h₁.trans (sameMarks_push h₂))
        ⟨rfl, rfl⟩ hw
  next =>
      simp only [bind_eq_ok] at hw
      obtain ⟨⟨a, b⟩, -, w₁, h₁, h₂⟩ := hw
      exact (sameMarks_push h₁).trans (sameMarks_push h₂)

/-- Taking a constraint off watch. -/
theorem sameMarks_unwatch (hu : w.unwatch c h = .ok w') : w.SameMarks w' := by
  simp only [unwatch, bind_eq_ok] at hu
  obtain ⟨ls, -, hu⟩ := hu
  refine foldlM_ok (fun _ w₁ => w.SameMarks w₁) (fun l _ w₁ w₂ h₁ h₂ => h₁.trans ?_) ⟨rfl, rfl⟩ hu
  exact ⟨size_modify h₂, isDirty_of_modify h₂ fun _ => rfl⟩

/-- No watcher of the constraint is left under its keys. -/
theorem handle_ne_of_unwatch (hu : w.unwatch c h = .ok w') {l : Lit} (hl : l ∈ c.keys) {x : Watcher}
    (hx : x ∈ w'.line l) : x.handle ≠ h := by
  simp only [unwatch, bind_eq_ok] at hu
  obtain ⟨ls, hls, hu⟩ := hu
  obtain rfl := Constraint.watchKeys_eq_ok hls
  refine foldlM_ok (fun rest (w₁ : WatchIndex) => l ∈ rest ∨ ∀ x ∈ w₁.line l, x.handle ≠ h)
    (fun m rest w₁ w₂ h₁ h₂ => ?_) (Or.inl hl) hu |>.elim (fun hno => absurd hno (by simp))
    fun hall => hall x hx
  obtain ⟨hne, y, hy, hm⟩ := line_modify h₂
  by_cases hlm : l = m
  · subst hlm
    refine Or.inr fun x hx => ?_
    rw [hm, Array.toList_filter] at hx
    simpa using (List.mem_filter.1 hx).2
  · rw [hne l hlm]
    exact h₁.imp_left fun hmem => (List.mem_cons.1 hmem).resolve_left hlm

/-- The lines of the keys of a constraint are marked. -/
theorem isDirty_markStale (hm : w.markStale c = .ok w') :
    w'.items.size = w.items.size ∧
      ∀ l, w'.isDirty l = false → w.isDirty l = false ∧ l ∉ c.keys := by
  simp only [markStale, bind_eq_ok] at hm
  obtain ⟨ls, hls, hm⟩ := hm
  obtain rfl := Constraint.watchKeys_eq_ok hls
  obtain ⟨hsize, hdirty⟩ := foldlM_ok (fun rest (w₁ : WatchIndex) =>
      w₁.items.size = w.items.size ∧ ∀ l, w₁.isDirty l = false →
        w.isDirty l = false ∧ (l ∈ c.keys → l ∈ rest))
    (fun k rest w₁ w₂ h₁ h₂ => ⟨(size_modify h₂).trans h₁.1, fun l hl => by
      rw [isDirty_modify h₂] at hl
      split at hl
      next => cases hl
      next hne =>
          obtain ⟨hclean, hrest⟩ := h₁.2 l hl
          exact ⟨hclean, fun hk => (List.mem_cons.1 (hrest hk)).resolve_left hne⟩⟩)
    ⟨rfl, fun l hl => ⟨hl, id⟩⟩ hm
  exact ⟨hsize, fun l hl => ⟨(hdirty l hl).1, fun hk => by cases (hdirty l hl).2 hk⟩⟩

end WatchIndex

namespace Network

variable {n n' : Network} {l p : Lit} {c : Constraint} {h : Handle} {index : WatchIndex}

/-- Every literal has a line, and on the clean lines every watcher watches a stored
constraint. -/
structure Tended (n : Network) : Prop where
  covers : n.index.Covers n.trail.varCount
  clean : ∀ l, n.index.isDirty l = false → ∀ x ∈ n.index.line l,
    ∃ c, n.store.get? x.handle = some c

namespace Tended

/-- What counts is how many variables there are and what is stored. -/
theorem of_trail (ht : n.Tended) {t : Trail} (hcount : t.varCount = n.trail.varCount) :
    Tended { n with trail := t } := ⟨hcount ▸ ht.covers, ht.clean⟩

/-- Nothing that was stored is gone, and the index is the same. -/
theorem of_live (ht : n.Tended) (hcount : n'.trail.varCount = n.trail.varCount)
    (hindex : n'.index = n.index)
    (hlive : ∀ a c, n.store.get? a = some c → ∃ c', n'.store.get? a = some c') : n'.Tended where
  covers := by
    rw [hcount, hindex]
    exact ht.covers
  clean l hl x hx := by
    obtain ⟨c, hc⟩ := ht.clean l (hindex ▸ hl) x (hindex ▸ hx)
    exact hlive _ c hc

/-- Constraints were rearranged. -/
theorem same (ht : n.Tended) {store : Store} (hs : n.store.Same store) :
    Tended { n with store } :=
  ht.of_live rfl rfl fun a c hc => (hs.forth a c hc).imp fun _ hc' => hc'.1

/-- Watchers of stored constraints may be added. -/
theorem of_lines (ht : n.Tended) (hmarks : n.index.SameMarks index)
    (hline : ∀ l, ∀ x ∈ index.line l, x ∈ n.index.line l ∨ ∃ c, n.store.get? x.handle = some c) :
    Tended { n with index } where
  covers := by
    have hcovers : 2 * n.trail.varCount ≤ n.index.items.size := ht.covers
    rw [← hmarks.size] at hcovers
    exact hcovers
  clean l hl x hx := by
    rcases hline l x hx with hx | hlive
    · exact ht.clean l (hmarks.dirty ▸ hl) x hx
    · exact hlive

/-- One watcher of a stored constraint is added. -/
theorem push (ht : n.Tended) {x : Watcher} (hp : n.index.push l x = .ok index)
    (hx : ∃ c, n.store.get? x.handle = some c) : Tended { n with index } := by
  refine ht.of_lines (WatchIndex.sameMarks_push hp) fun m y hy => ?_
  rw [WatchIndex.line_push hp] at hy
  by_cases hm : m = l
  · subst hm
    rw [Function.update_self] at hy
    rcases List.mem_append.1 hy with hy | hy
    · exact Or.inl hy
    · exact Or.inr (List.mem_singleton.1 hy ▸ hx)
  · rw [Function.update_of_ne hm] at hy
    exact Or.inl hy

/-- The watchers taken out of a line watch stored constraints. -/
theorem take (ht : n.Tended) {ws : Array Watcher} (hk : n.index.take n.store p = .ok (ws, index)) :
    Tended { n with index } ∧ index.isDirty p = false ∧
      ∀ x ∈ ws.toList, ∃ c, n.store.get? x.handle = some c := by
  -- what is left of a line that was cleaned watches stored constraints, and a clean line did so
  -- before
  have hline := (WatchIndex.take_eq_ok hk).1
  simp only [WatchIndex.take, bind_eq_ok, pure_eq_ok, Prod.mk.injEq, DenseTable.fetch,
    fetch_eq_ok] at hk
  obtain ⟨y, hy, w₁, hset, hws, rfl⟩ := hk
  have hlt : p.index < n.index.items.size := (Array.getElem?_eq_some_iff.1 hy).1
  rw [DenseTable.set, if_pos hlt] at hset
  obtain rfl := Except.ok.inj hset
  have hdirty : ∀ m, WatchIndex.isDirty ⟨n.index.items.setIfInBounds p.index {}⟩ m =
      if m = p then false else n.index.isDirty m := fun m => by
    simp only [WatchIndex.isDirty, Array.getD_eq_getD_getElem?, Array.getElem?_setIfInBounds]
    by_cases hm : m = p
    · subst hm
      simp [hlt]
    · have : p.index ≠ m.index := fun he => hm (Lit.index_inj.1 he).symm
      simp [this, hm]
  refine ⟨⟨by simpa [WatchIndex.Covers] using ht.covers, fun m hm x hx => ?_⟩,
    by rw [hdirty, if_pos rfl], fun x hx => ?_⟩
  · have hm' := hdirty m
    simp only at hx
    rw [hline] at hx
    by_cases hmp : m = p
    · subst hmp
      rw [Function.update_self] at hx
      cases hx
    · rw [Function.update_of_ne hmp] at hx
      rw [if_neg hmp] at hm'
      exact ht.clean m (hm'.symm.trans hm) x hx
  · have hd : n.index.isDirty p = y.dirty := by
      simp [WatchIndex.isDirty, Array.getD_eq_getD_getElem?, hy]
    rw [← hws] at hx
    split at hx
    next =>
        simp only [Array.toList_filter, List.mem_filter, Store.isDeleted] at hx
        exact Option.isSome_iff_exists.1 (by simpa using hx.2)
    next hno =>
        refine ht.clean p (hd.trans (by simpa using hno)) x ?_
        rwa [WatchIndex.line_eq_of_getElem? hy]

/-- Watchers of stored constraints are put back on a line. -/
theorem restore (ht : n.Tended) {ws : Array Watcher} (hr : n.index.restore p ws = .ok index)
    (hws : ∀ x ∈ ws.toList, ∃ c, n.store.get? x.handle = some c) : Tended { n with index } := by
  refine ht.of_lines (WatchIndex.sameMarks_restore hr) fun m y hy => ?_
  rw [WatchIndex.line_restore hr] at hy
  by_cases hm : m = p
  · subst hm
    rw [Function.update_self] at hy
    exact Or.inr (hws y hy)
  · rw [Function.update_of_ne hm] at hy
    exact Or.inl hy

/-! ## Constraints and variables that come and go

Constraints that were freed are given with what they were. Their keys tell which lines have to be
marked or cleaned. -/

/-- A constraint was stored and put on watch. -/
theorem stores (ht : n.Tended) (hst : n.Stores n' h c) (hw : n.index.SameMarks n'.index) :
    n'.Tended where
  covers := by
    rw [hst.trail, WatchIndex.Covers, hw.size]
    exact ht.covers
  clean l hl x hx := by
    obtain ⟨ws, hline, hws, -⟩ := hst.watchers l
    rw [hline] at hx
    rcases List.mem_append.1 hx with hx | hx
    · obtain ⟨d, hd⟩ := ht.clean l (hw.dirty ▸ hl) x hx
      exact ⟨d, hst.get?_old hd⟩
    · exact ⟨c, (hws x hx).1 ▸ hst.get?_self⟩

/-- Constraints were freed, and the lines of their keys marked. -/
theorem markStale {dead : Lit → Prop} (ht : n.Tended) (hx : Exact n.index.line n.store dead)
    {removed : List (Handle × Constraint)}
    (hcount : n'.trail.varCount = n.trail.varCount)
    (hgone : ∀ a c, n.store.get? a = some c → n'.store.get? a = none →
      ∃ c', (a, c') ∈ removed ∧ c'.keys = c.keys)
    (hm : removed.foldlM (fun (w : WatchIndex) x => w.markStale x.2) n.index = .ok n'.index) :
    n'.Tended := by
  obtain ⟨hsize, hline, hdirty⟩ := foldlM_ok (fun rest (w : WatchIndex) =>
      w.items.size = n.index.items.size ∧ w.line = n.index.line ∧
        ∀ l, w.isDirty l = false → n.index.isDirty l = false ∧
          ∀ x ∈ removed, x ∈ rest ∨ l ∉ x.2.keys)
    (fun y rest w₁ w₂ h₁ h₂ => by
      obtain ⟨hs, hd⟩ := WatchIndex.isDirty_markStale h₂
      refine ⟨hs.trans h₁.1, (WatchIndex.line_markStale h₂).trans h₁.2.1, fun l hl => ?_⟩
      obtain ⟨hl₁, hkeys⟩ := hd l hl
      obtain ⟨hclean, hrest⟩ := h₁.2.2 l hl₁
      refine ⟨hclean, fun x hx => ?_⟩
      rcases hrest x hx with hxr | hno
      · rcases List.mem_cons.1 hxr with rfl | hxr
        · exact Or.inr hkeys
        · exact Or.inl hxr
      · exact Or.inr hno)
    ⟨rfl, rfl, fun l hl => ⟨hl, fun x hx => Or.inl hx⟩⟩ hm
  refine ⟨?_, fun l hl x hxl => ?_⟩
  · rw [hcount, WatchIndex.Covers, hsize]
    exact ht.covers
  · rw [hline] at hxl
    obtain ⟨hclean, hmarked⟩ := hdirty l hl
    obtain ⟨d, hd⟩ := ht.clean l hclean x hxl
    cases hd' : n'.store.get? x.handle with
    | some d' => exact ⟨d', rfl⟩
    | none =>
        -- the line of a key of a freed constraint was marked
        obtain ⟨d', hmem, hkeys⟩ := hgone _ d hd hd'
        have hno := (hmarked _ hmem).resolve_left (by simp)
        exact absurd (hkeys ▸ hx.mem_keys hxl hd) hno

/-- Constraints were freed, and their watchers removed. -/
theorem unwatch {dead : Lit → Prop} (ht : n.Tended) (hx : Exact n.index.line n.store dead)
    {removed : List (Handle × Constraint)} (hcount : n'.trail.varCount = n.trail.varCount)
    (hgone : ∀ a c, n.store.get? a = some c → n'.store.get? a = none → (a, c) ∈ removed)
    (hu : removed.foldlM (fun (w : WatchIndex) x => w.unwatch x.2 x.1) n.index = .ok n'.index) :
    n'.Tended := by
  obtain ⟨hmarks, hsub, hclear⟩ := foldlM_ok (fun rest (w : WatchIndex) =>
      n.index.SameMarks w ∧ (∀ l, ∀ x ∈ w.line l, x ∈ n.index.line l) ∧
        ∀ y ∈ removed, y ∈ rest ∨ ∀ l ∈ y.2.keys, ∀ x ∈ w.line l, x.handle ≠ y.1)
    (fun y rest w₁ w₂ h₁ h₂ => by
      have hsub : ∀ l, ∀ x ∈ w₂.line l, x ∈ w₁.line l := fun l x hx =>
        (WatchIndex.line_unwatch h₂ l).1.subset hx
      refine ⟨h₁.1.trans (WatchIndex.sameMarks_unwatch h₂), fun l x hx => h₁.2.1 l x (hsub l x hx),
        fun z hz => ?_⟩
      rcases h₁.2.2 z hz with hzr | hno
      · rcases List.mem_cons.1 hzr with rfl | hzr
        · exact Or.inr fun l hl x hx => WatchIndex.handle_ne_of_unwatch h₂ hl hx
        · exact Or.inl hzr
      · exact Or.inr fun l hl x hx => hno l hl x (hsub l x hx))
    ⟨⟨rfl, rfl⟩, fun _ _ => id, fun y hy => Or.inl hy⟩ hu
  refine ⟨?_, fun l hl x hxl => ?_⟩
  · rw [hcount, WatchIndex.Covers, hmarks.size]
    exact ht.covers
  · obtain ⟨d, hd⟩ := ht.clean l (hmarks.dirty ▸ hl) x (hsub l x hxl)
    cases hd' : n'.store.get? x.handle with
    | some d' => exact ⟨d', rfl⟩
    | none =>
        have hno := (hclear _ (hgone _ d hd hd')).resolve_left (by simp)
        exact absurd rfl (hno l (hx.mem_keys (hsub l x hxl) hd) x hxl)

/-- The lines of a new variable are clean and empty. -/
theorem addVar (ht : n.Tended) {t : Trail} (hcount : t.varCount = n.trail.varCount + 1) :
    Tended { n with trail := t, index := n.index.addVar ⟨n.trail.varCount⟩ } where
  covers := by
    have := ht.covers
    simp only [WatchIndex.Covers, hcount, WatchIndex.addVar, DenseTable.cover, Var.lit, Lit.index,
      Bool.toNat_true, Array.size_append, Array.size_replicate] at this ⊢
    omega
  clean l hl x hx := by
    have hdirty : (n.index.addVar ⟨n.trail.varCount⟩).isDirty l = n.index.isDirty l := by
      simp only [WatchIndex.isDirty, WatchIndex.addVar, DenseTable.cover,
        Array.getD_eq_getD_getElem?, Array.getElem?_append, Array.getElem?_replicate]
      split
      · rfl
      · rw [Array.getElem?_eq_none (by omega)]
        split <;> rfl
    rw [WatchIndex.line_addVar] at hx
    exact ht.clean l (hdirty ▸ hl) x hx

/-- The lines that are left cover the variables that are left. -/
theorem truncateVars (ht : n.Tended) {t : Trail} {k : Nat} (hk : k ≤ n.trail.varCount)
    (hcount : t.varCount = k) :
    Tended { n with trail := t, index := WatchIndex.truncateVars n.index k } where
  covers := by
    have := ht.covers
    simp only [WatchIndex.Covers, hcount, WatchIndex.truncateVars, DenseTable.truncate,
      Array.take_eq_extract, Array.size_extract] at this ⊢
    omega
  clean l hl x hx := by
    rw [WatchIndex.line_truncateVars] at hx
    split at hx
    next hlt =>
        have hl' : l.index < 2 * k := Lit.index_lt_iff.2 hlt
        refine ht.clean l (.trans ?_ hl) x hx
        simp only [WatchIndex.isDirty, WatchIndex.truncateVars, DenseTable.truncate,
          Array.getD_eq_getD_getElem?, Array.take_eq_extract, ← Array.getElem?_toList,
          Array.toList_extract, List.extract_eq_take_drop, List.drop_zero, Nat.sub_zero,
          List.getElem?_take, if_pos hl']
    next => cases hx

end Tended

end Network

end CardSat
