import CardSat.Proofs.Network

set_option autoImplicit false

/-! # Variables that come and go

A new variable has no value and no watchers. Before variables are forgotten, everything is taken
back and no constraint that mentions them is left. Of the constraints that are removed the watchers
are removed too, at once (`unwatch`) or when their lines are read the next time (`markStale`).

So the changes here are changes of the tables, and what has to be shown is that they are not
noticed: reading a line or a cell that is still there gives what it gave before, and a line or a
cell that is new is empty.
-/

namespace CardSat

/-! ## The watch index

A line that does not exist is read as an empty one, so adding empty lines changes nothing that is
read. -/

namespace WatchIndex

variable {w w' : WatchIndex} {c : Constraint} {h : Handle}

/-- The lines of a new variable are empty, like those of any unknown one. -/
theorem line_addVar (w : WatchIndex) (v : Var) : (w.addVar v).line = w.line := by
  funext l
  simp only [line, addVar, DenseTable.cover, Array.getD_eq_getD_getElem?, Array.getElem?_append,
    Array.getElem?_replicate]
  split
  · rfl
  · rw [Array.getElem?_eq_none (by omega)]
    split <;> rfl

/-- The lines of the variables that are left are as before. -/
theorem line_truncateVars (w : WatchIndex) (n : Nat) (l : Lit) :
    (truncateVars w n).line l = if l.var.index < n then w.line l else [] := by
  have hl : l.index < 2 * n ↔ l.var.index < n := by
    rw [Lit.index]
    cases l.negated
    all_goals
      simp only [Bool.toNat_false, Bool.toNat_true]
      omega
  simp only [line, truncateVars, DenseTable.truncate, Array.getD_eq_getD_getElem?,
    Array.take_eq_extract, ← Array.getElem?_toList, Array.toList_extract,
    List.extract_eq_take_drop, List.drop_zero, Nat.sub_zero, List.getElem?_take, hl]
  split <;> rfl

/-- Marking a line leaves its watchers. -/
theorem line_markStale (hm : w.markStale c = .ok w') : w'.line = w.line := by
  simp only [markStale, bind_eq_ok] at hm
  obtain ⟨ls, -, hm⟩ := hm
  refine foldlM_ok (fun _ w₁ => w₁.line = w.line) (fun l _ w₁ w₂ h₁ h₂ => ?_) rfl hm
  obtain ⟨hne, x, hx, hl⟩ := line_modify h₂
  rw [← h₁]
  funext m
  by_cases hml : m = l
  · rw [hml, hl, line_eq_of_getElem? hx]
  · exact hne m hml

/-- Only watchers of the constraint are removed. -/
theorem line_unwatch (hu : w.unwatch c h = .ok w') (l : Lit) :
    (w'.line l).Sublist (w.line l) ∧ ∀ a, a ≠ h →
      (w'.line l).countP (fun x => x.handle = a) = (w.line l).countP fun x => x.handle = a := by
  simp only [unwatch, bind_eq_ok] at hu
  obtain ⟨ls, -, hu⟩ := hu
  refine foldlM_ok (fun _ (w₁ : WatchIndex) => (w₁.line l).Sublist (w.line l) ∧ ∀ a, a ≠ h →
    (w₁.line l).countP (fun x => x.handle = a) = (w.line l).countP fun x => x.handle = a)
    (fun m _ w₁ w₂ h₁ h₂ => ?_) ⟨List.Sublist.refl _, fun _ _ => rfl⟩ hu
  obtain ⟨hne, x, hx, hm⟩ := line_modify h₂
  -- only the line of a watched literal is filtered
  by_cases hlm : l = m
  · subst hlm
    have hfilter : w₂.line l = (w₁.line l).filter fun x => x.handle ≠ h := by
      rw [hm, line_eq_of_getElem? hx, Array.toList_filter]
    rw [hfilter]
    refine ⟨List.filter_sublist.trans h₁.1, fun a ha => ?_⟩
    rw [← h₁.2 a ha, List.countP_filter]
    refine List.countP_congr fun y _ => ?_
    simp only [ne_eq, decide_not, Bool.and_eq_true, decide_eq_true_eq, Bool.not_eq_true',
      decide_eq_false_iff_not, and_iff_left_iff_imp]
    rintro rfl
    exact ha
  · rw [hne l hlm]
    exact h₁

/-- The watchers of constraints that are gone may be removed. -/
theorem lines_of_unwatch_all {store : Store} {xs : List (Handle × Constraint)}
    (hgone : ∀ x ∈ xs, store.get? x.1 = none)
    (hu : xs.foldlM (fun (w : WatchIndex) x => w.unwatch x.2 x.1) w = .ok w') (l : Lit) :
    (∀ x ∈ w'.line l, x ∈ w.line l) ∧ ∀ a d, store.get? a = some d →
      (w'.line l).countP (fun x => x.handle = a) = (w.line l).countP fun x => x.handle = a := by
  refine (foldlM_ok (fun rest (w₁ : WatchIndex) => (∀ x ∈ rest, store.get? x.1 = none) ∧
    (∀ x ∈ w₁.line l, x ∈ w.line l) ∧ ∀ a d, store.get? a = some d →
      (w₁.line l).countP (fun x => x.handle = a) = (w.line l).countP fun x => x.handle = a)
    (fun y rest w₁ w₂ h₁ h₂ => ?_) ⟨hgone, fun _ => id, fun _ _ _ => rfl⟩ hu).2
  obtain ⟨hsub, hcount⟩ := line_unwatch h₂ l
  refine ⟨fun x hx => h₁.1 x (List.mem_cons_of_mem _ hx), fun x hx => h₁.2.1 x (hsub.subset hx),
    fun a d hd => ?_⟩
  have hne : a ≠ y.1 := by
    rintro rfl
    rw [h₁.1 y (by simp)] at hd
    cases hd
  rw [hcount a hne, h₁.2.2 a d hd]

end WatchIndex

/-! ## The trail -/

namespace Trail

/-- A new variable changes no values and no levels. -/
theorem keeps_push (t : Trail) (m : Lit) : t.Keeps { t with cells := t.cells.push {} } m :=
  ⟨by rw [levelOf, cellOf_push, levelOf],
    fun _ hl _ => ⟨hl, by rw [levelOf, cellOf_push, levelOf]⟩⟩

end Trail

/-! ## The network -/

namespace Network

variable {n : Network} {dead : Lit → Prop} {R : World → Prop} {due : Handle → Lit → Prop}

/-- A new variable fits in: no constraint, watcher or literal of the trail is about it. -/
theorem Sane.newVar (hs : n.Sane dead n.index.line) (v : Var) :
    Sane { n with
        trail := { n.trail with cells := n.trail.cells.push {} }, index := n.index.addVar v }
      dead (n.index.addVar v).line where
  trail := Trail.valid_push hs.trail
  queued := hs.queued
  formed a c hc := (hs.formed a c hc).mono (by simp [Trail.varCount])
  lines := by
    rw [WatchIndex.line_addVar]
    exact hs.lines
  reasons i m a hi ha := by
    rw [Trail.reasonOf, Trail.cellOf_push] at ha
    obtain ⟨c, hc, he⟩ := hs.reasons i m a hi ha
    exact ⟨c, hc, he.keep (Trail.keeps_push _ _)⟩
  dead_false := hs.dead_false

/-- Nothing more is due. -/
theorem Watching.newVar (hw : n.Watching due) (v : Var) :
    Watching { n with
        trail := { n.trail with cells := n.trail.cells.push {} }, index := n.index.addVar v }
      due := by
  intro a c hc key hk hdone
  exact (hw a c hc key hk hdone).imp_right fun hsup => hsup.keep (Trail.keeps_push _ _)

/-- Forgetting variables when nothing is assigned. -/
theorem Sane.truncateVars (hs : n.Sane dead n.index.line) {k : Nat} {t : Trail}
    (ht : n.trail.truncateVars k = .ok t)
    (hknown : ∀ a c, n.store.get? a = some c → c.WellFormed k) (hk : k ≤ n.trail.varCount)
    (hdead : ∀ l, ¬ dead l) :
    Sane { n with trail := t, index := WatchIndex.truncateVars n.index k } dead
      (WatchIndex.truncateVars n.index k).line := by
  have hv := Trail.valid_truncateVars hs.trail ht
  have hq := hs.queued
  obtain ⟨hempty, rfl⟩ := Trail.truncateVars_eq_ok.1 ht
  refine ⟨hv, hq, fun a c hc => ?_, hs.lines.of_lines (fun a c hc l => ?_) fun l x hx => ?_,
    fun i m a hi => ?_, fun l hl => absurd hl (hdead l)⟩
  · have : Trail.varCount { n.trail with cells := n.trail.cells.take k } = k := by
      simpa [Trail.varCount] using Nat.min_eq_left hk
    rw [this]
    exact hknown a c hc
  · rw [WatchIndex.line_truncateVars]
    split
    · rfl
    · next hlt =>
        -- a line that is cut off belongs to a literal that no constraint contains
        have hkey : l ∉ c.keys := fun hl => hlt ((hknown a c hc).known_of_mem_keys hl)
        rw [hs.lines.count a c hc, if_neg hkey, List.countP_nil]
  · rw [WatchIndex.line_truncateVars] at hx
    split at hx
    · exact hx
    · cases hx
  · simp [hempty] at hi

end Network

end CardSat
