import CardSat.Proofs.Database.Removal
import CardSat.Proofs.Network.Aligned

set_option autoImplicit false

/-! # Removals where reasons are not relied on

Removing satisfied constraints does not look at reasons, except to clear them, and giving up learnt
clauses looks at them only to decide what to keep. So a removal from an aligned network does to it
what a removal from a sane one does, apart from the reasons it clears (`Database.Clearance`).

## How the proof goes

In an aligned network the reasons need not be those of the stored constraints, so the lemmas about
removals, which are about sane networks, do not apply to it. But with its reasons forgotten
(`Trail.forget`) it is sane. For the removal of satisfied constraints the same sweep is run on both
trails: it takes the same decisions (`sweepSatisfied_on`), so it leaves the same store and the same
lists, and the lemma about the sane network tells what they are. Giving up learnt clauses does look
at reasons, so without them it would decide otherwise. There the sweep of the forgotten trail is not
a run of the program: it drops what the run drops (`giveUp_eq_ok`), and the invariant is carried
next to the run.
-/

namespace CardSat

/-- A loop is simulated step by step. -/
theorem foldlM_simulated {α β : Type} {f : β → α → Checked β} (g : β → β) (P : β → Prop)
    (step : ∀ a b b', P b → f b a = .ok b' → f (g b) a = .ok (g b') ∧ P b') :
    ∀ {as : List α} {b b' : β}, P b → as.foldlM f b = .ok b' →
      as.foldlM f (g b) = .ok (g b') ∧ P b' := by
  intro as
  induction as with
  | nil =>
      intro b b' hb h
      obtain rfl := pure_eq_ok.1 h
      exact ⟨rfl, hb⟩
  | cons a rest ih =>
      intro b b' hb h
      obtain ⟨b₁, h₁, h₂⟩ := bind_eq_ok.1 h
      obtain ⟨hg₁, hb₁⟩ := step a b b₁ hb h₁
      obtain ⟨hg₂, hb'⟩ := ih hb₁ h₂
      exact ⟨bind_eq_ok.2 ⟨_, hg₁, hg₂⟩, hb'⟩

namespace Trail

variable {t t' u : Trail}

/-- The trail without any reason. -/
def forget (t : Trail) : Trail := { t with cells := t.cells.map fun c => { c with reason := none } }

/-- Forgetting takes away reasons and nothing else. -/
theorem cellOf_forget (t : Trail) (v : Var) :
    t.forget.cellOf v = { t.cellOf v with reason := none } := by
  simp only [cellOf, forget, Array.getD_eq_getD_getElem?, Array.getElem?_map]
  cases t.cells[v.index]? <;> rfl

/-- There is no reason left. -/
theorem reasonOf_forget (t : Trail) (v : Var) : t.forget.reasonOf v = none := by
  rw [reasonOf, cellOf_forget]

/-- A trail without its reasons differs from it in reasons only. -/
theorem cleared_forget (t : Trail) : t.Cleared t.forget where
  lits := rfl
  starts := rfl
  head := rfl
  varCount := Array.size_map
  value v := by rw [cellOf_forget]
  level v := by rw [levelOf, cellOf_forget, levelOf]
  reason v := Or.inr (reasonOf_forget t v)

/-- Where all reasons are forgotten, it does not matter which of them are forgotten first. -/
theorem Cleared.of_cleared (h : t.Cleared u) (h' : t.Cleared t') (hu : ∀ v, u.reasonOf v = none) :
    t'.Cleared u where
  lits := h.lits.trans h'.lits.symm
  starts := h.starts.trans h'.starts.symm
  head := h.head.trans h'.head.symm
  varCount := h.varCount.trans h'.varCount.symm
  value v := (h.value v).trans (h'.value v).symm
  level v := (h.level v).trans (h'.level v).symm
  reason v := Or.inr (hu v)

end Trail

/-- An aligned network is sane when all reasons are forgotten. -/
theorem Network.Aligned.forget {n : Network} {dead : Lit → Prop} {line : Lit → List Watcher}
    (ha : n.Aligned dead line) : Sane { n with trail := n.trail.forget } dead line where
  trail := (Trail.cleared_forget _).valid ha.trail
  queued := (Trail.cleared_forget _).queued ha.queued
  formed h c hc := (Trail.cleared_forget n.trail).varCount ▸ ha.formed hc
  lines := ha.lines
  reasons i m h _ hr := by
    rw [show Trail.reasonOf _ m.var = none from Trail.reasonOf_forget _ _] at hr
    cases hr
  dead_false l hl := (Trail.cleared_forget n.trail).mem_iff.2 (ha.dead_false hl)

/-- Whether a constraint is satisfied does not depend on reasons. -/
theorem Constraint.isSatisfied_of_cleared {t u : Trail} (h : t.Cleared u) (c : Constraint) :
    c.isSatisfied u = c.isSatisfied t := by
  simp only [isSatisfied, h.isTrue_eq, h.isFalse_eq]

namespace Database

variable {n : Network} {dead : Lit → Prop} {strengthened : Prop} {gone : Handle → Constraint → Prop}
  {db db' : Database} {s s' : Sweep} {h : Handle} {c : Constraint} {u : Trail}

/-! ## Sweeps on two trails -/

/-- The sweep with another trail. -/
def Sweep.on (u : Trail) (s : Sweep) : Sweep := { s with trail := u }

/-- Nothing has to be cleared where there are no reasons. -/
theorem drop_on (hc : s.trail.Cleared u) (hu : ∀ v, u.reasonOf v = none)
    (hd : s.drop h c = .ok s') :
    (s.on u).drop h c = .ok (s'.on u) ∧ s'.trail.Cleared u ∧ s.trail.Cleared s'.trail := by
  simp only [Sweep.drop, bind_eq_ok, pure_eq_ok] at hd
  obtain ⟨trail, htrail, store, hstore, rfl⟩ := hd
  have hs := (cleared_of_foldlM htrail).1
  refine ⟨?_, hc.of_cleared hs hu, hs⟩
  -- a trail without reasons has none to clear
  have hstay : c.lits.toList.foldlM (fun (t : Trail) l => do
      if ← t.isReasonFor h l then t.clearReason l.var else return t) u = .ok u := by
    refine (foldlM_simulated (fun _ => u) (fun t => t.varCount = u.varCount)
      (fun l t t' ht hstep => ?_) hc.varCount.symm htrail).1
    obtain ⟨b, hb, hstep⟩ := bind_eq_ok.1 hstep
    obtain ⟨cell, hcell, -⟩ := bind_eq_ok.1 hb
    have hcell' := Trail.cell_eq_ok.2 ⟨ht ▸ (Trail.cell_eq_ok.1 hcell).1, rfl⟩
    have hno : u.isReasonFor h l = .ok false := by
      rw [Trail.isReasonFor, hcell', ok_bind, show (u.cellOf l.var).reason = none from hu l.var]
      simp [pure_eq_ok]
    refine ⟨bind_eq_ok.2 ⟨false, hno, rfl⟩, ?_⟩
    cases b with
    | true => exact (Trail.cleared_of_clearReason hstep).varCount.trans ht
    | false => exact pure_eq_ok.1 hstep ▸ ht
  simp only [Sweep.drop, Sweep.on, bind_eq_ok, pure_eq_ok]
  exact ⟨u, hstay, store, hstore, rfl⟩

/-- A step of the removal does the same on a trail that has lost all of its reasons. -/
theorem sweepSatisfied_on {st : Bool} (hc : s.trail.Cleared u) (hu : ∀ v, u.reasonOf v = none)
    (hok : sweepSatisfied st s h = .ok s') :
    sweepSatisfied st (s.on u) h = .ok (s'.on u) ∧ s'.trail.Cleared u ∧
      s.trail.Cleared s'.trail := by
  simp only [sweepSatisfied, bind_eq_ok] at hok
  obtain ⟨c, hfetch, b, hb, hok⟩ := hok
  simp only [sweepSatisfied, Sweep.on, Constraint.isSatisfied_of_cleared hc, hc.isFalse_eq, hfetch,
    ok_bind, hb]
  cases b with
  | true => exact drop_on hc hu hok
  | false =>
      simp only [Bool.false_eq_true, if_false] at hok ⊢
      split at hok
      next hst =>
          obtain ⟨c', hc', hok⟩ := bind_eq_ok.1 hok
          obtain rfl := pure_eq_ok.1 hok
          exact ⟨(if_pos hst).trans (bind_eq_ok.2 ⟨c', hc', rfl⟩), hc, .refl _⟩
      next hst =>
          obtain rfl := pure_eq_ok.1 hok
          exact ⟨if_neg hst, hc, .refl _⟩

/-- So does a whole sweep. -/
theorem foldlM_sweepSatisfied_on {st : Bool} {as : List Handle} (hc : s.trail.Cleared u)
    (hu : ∀ v, u.reasonOf v = none) (hok : as.foldlM (sweepSatisfied st) s = .ok s') :
    as.foldlM (sweepSatisfied st) (s.on u) = .ok (s'.on u) ∧ s'.trail.Cleared u ∧
      s.trail.Cleared s'.trail :=
  foldlM_simulated (Sweep.on u) (fun s₁ => s₁.trail.Cleared u ∧ s.trail.Cleared s₁.trail)
    (fun _ _ _ hs hstep => by
      obtain ⟨hon, hc', hs'⟩ := sweepSatisfied_on hs.1 hu hstep
      exact ⟨hon, hc', hs.2.trans hs'⟩) ⟨hc, .refl _⟩ hok

/-- So does the whole removal, which is one sweep or two. -/
theorem removeSatisfied_on {st : Bool} {store : Store} {t : Trail} (hc : t.Cleared u)
    (hu : ∀ v, u.reasonOf v = none) (hok : db.removeSatisfied store t st st = .ok (db', s)) :
    db.removeSatisfied store u st st = .ok (db', s.on u) ∧ s.trail.Cleared u ∧
      t.Cleared s.trail := by
  simp only [removeSatisfied, bind_eq_ok] at hok
  obtain ⟨_, hreq, s₁, hfold, hok⟩ := hok
  rw [← Array.foldlM_toList] at hfold
  obtain ⟨hfold', hc₁, hs₁⟩ := foldlM_sweepSatisfied_on (s := Sweep.start db store t) hc hu hfold
  have hground : u.isGround = t.isGround := by rw [Trail.isGround, hc.level_eq, Trail.isGround]
  simp only [removeSatisfied, hground, hreq, ok_bind]
  rw [Array.foldlM_toList] at hfold'
  rw [show Sweep.start db store u = (Sweep.start db store t).on u from rfl, hfold', ok_bind]
  split at hok
  next hyes =>
      obtain ⟨s₂, hfold₂, hok⟩ := bind_eq_ok.1 hok
      obtain ⟨rfl, rfl⟩ := Prod.mk.inj (pure_eq_ok.1 hok)
      rw [← Array.foldlM_toList] at hfold₂
      obtain ⟨hfold₂', hc₂, hs₂⟩ :=
        foldlM_sweepSatisfied_on (s := { s₁ with kept := #[] }) hc₁ hu hfold₂
      rw [Array.foldlM_toList] at hfold₂'
      exact ⟨(if_pos hyes).trans (bind_eq_ok.2 ⟨_, hfold₂', rfl⟩), hc₂, hs₁.trans hs₂⟩
  next hno =>
      obtain ⟨rfl, rfl⟩ := Prod.mk.inj (pure_eq_ok.1 hok)
      exact ⟨if_neg hno, hc₁, hs₁⟩

/-! ## Clearances -/

/-- What a removal from an aligned network ends with. -/
structure Clearance (n : Network) (dead : Lit → Prop) (strengthened : Prop)
    (gone : Handle → Constraint → Prop) (db' : Database) (s : Sweep) : Prop where
  aligned : (s.network n).Aligned dead n.index.line
  thinned : n.Thinned (s.network n) strengthened gone
  listed : db'.Listed s.store
  accounted : ∀ a d, n.store.get? a = some d → s.store.get? a = none → (a, d) ∈ s.removed.toList

/-- What a removal does without the reasons is a clearance. -/
theorem Removal.clearance {good : Prop} {R : World → Prop} {t : Trail}
    (hr : Removal { n with trail := t } dead good R strengthened gone db' (s.on u))
    (hc : s.trail.Cleared u) (ht : n.trail.Cleared s.trail) :
    Clearance n dead strengthened gone db' s where
  aligned := ⟨u, hc, hr.sane⟩
  thinned := ⟨hr.thinned.size, ht, hr.thinned.index, hr.thinned.left, hr.thinned.gone⟩
  listed := hr.listed
  accounted := hr.accounted

/-- Removing satisfied constraints from an aligned network is a clearance. -/
theorem clearance_of_removeSatisfied {st : Bool} (ha : n.Aligned dead n.index.line)
    (hl : db.Listed n.store) (hdead : st = true → ∀ l, l.neg ∈ n.trail → dead l)
    (hok : db.removeSatisfied n.store n.trail st st = .ok (db', s)) :
    Clearance n dead (st = true) (fun h _ => h ∈ db.learnts.toList ∨ st = true) db' s ∧
      db'.units = db.units ∧ db'.nextSerial = db.nextSerial ∧
      (st = false → db'.given = db.given) := by
  obtain ⟨hok', hc, ht⟩ := removeSatisfied_on (Trail.cleared_forget _)
    (Trail.reasonOf_forget n.trail) hok
  obtain ⟨hr, hunits, hserial, hgiven, -⟩ : Removal { n with trail := n.trail.forget } dead False
      (fun _ => False) _ _ _ _ ∧ _ :=
    removal_of_removeSatisfied ha.forget ⟨by simp, by simp⟩ False.elim hl
      (fun hst l hneg => hdead hst l ((Trail.cleared_forget n.trail).mem_iff.1 hneg)) hok'
  have hcl := hr.clearance hc ht
  exact ⟨⟨hcl.aligned, ⟨hcl.thinned.size, hcl.thinned.trail, hcl.thinned.index, hcl.thinned.left,
    fun a c hac hno => (hcl.thinned.gone a c hac hno).1⟩, hcl.listed, hcl.accounted⟩, hunits,
    hserial, hgiven⟩

/-- Giving up learnt clauses of an aligned network is a clearance. -/
theorem clearance_of_reduce (ha : n.Aligned dead n.index.line) (hl : db.Listed n.store)
    (hok : db.reduce n.store n.trail = .ok (db', s)) :
    Clearance n dead False (fun h _ => h ∈ db.learnts.toList) db' s ∧
      db'.units = db.units ∧ db'.nextSerial = db.nextSerial ∧ db'.given = db.given := by
  obtain ⟨xs, p, hperm, hclause, hfold, rfl⟩ := reduce_eq_ok hl hok
  have hnone : ∀ v, n.trail.forget.reasonOf v = none := Trail.reasonOf_forget _
  -- the sweep without reasons follows the decisions of the one with reasons
  let P : List ((Handle × Constraint) × Nat) → Sweep → Prop := fun rest s₁ =>
    s₁.trail.Cleared n.trail.forget ∧ n.trail.Cleared s₁.trail ∧
      Sweeping { n with trail := n.trail.forget } dead False (fun _ => False) False
        (fun h _ => h ∈ db.learnts.toList) db.given.toList (rest.map fun x => x.1.1)
        (s₁.on n.trail.forget) ∧
      (∀ x ∈ rest, x ∈ xs) ∧ ∀ a ∈ s₁.kept.toList, a ∈ db.learnts.toList
  have hend : P [] s := by
    refine foldlM_ok P ?_ ⟨Trail.cleared_forget _, .refl _, ?_, fun _ => id,
      by simp [Sweep.start]⟩ hfold
    · rintro x rest s₁ s₂ ⟨hc, ht, hsw, hrest, hsub⟩ hstep
      obtain ⟨hget, hmem, -⟩ := hclause x (hrest x (by simp))
      have hstored : (s₁.on n.trail.forget).store.get? x.1.1 = some x.1.2 :=
        (hsw.untouched x.1.1 (by simp)).trans hget
      have hrest' : ∀ y ∈ rest, y ∈ xs := fun y hy => hrest y (List.mem_cons_of_mem _ hy)
      rcases giveUp_eq_ok hstep with hdrop | rfl
      · obtain ⟨hdrop', hc₂, ht₂⟩ := drop_on hc hnone hdrop
        obtain ⟨-, hkept, -⟩ := frees_of_drop hsw.sane hstored hdrop'
        exact ⟨hc₂, ht.trans ht₂, hsw.drop hstored hmem hdrop', hrest',
          fun a ha => hsub a (by rwa [← show s₂.kept = s₁.kept from hkept])⟩
      · refine ⟨hc, ht, hsw.keep hstored, hrest', fun a ha => ?_⟩
        rcases List.mem_append.1 (by simpa [Sweep.keep] using ha : a ∈ s₁.kept.toList ++ [x.1.1])
          with ha | ha
        · exact hsub a ha
        · exact List.mem_singleton.1 ha ▸ hmem
    · exact Sweeping.start (s := (Sweep.start db n.store n.trail).on n.trail.forget)
        (n := { n with trail := n.trail.forget }) ha.forget ⟨by simp, by simp⟩ False.elim rfl
        ((hperm.append_left _).nodup_iff.2 hl.nodup)
        (fun a d hd => (hperm.append_left _).mem_iff.2 (hl.live a d hd))
        (by simp [Sweep.start, Sweep.on])
  obtain ⟨hc, ht, hsw, -, hsub⟩ := hend
  have hr : Removal _ dead False (fun _ => False) False _
      { db with learnts := s.kept, counts := s.counts } (s.on n.trail.forget) :=
    hsw.removal hl (.refl _) (fun _ => id) hsub fun _ _ _ _ _ _ => id
  exact ⟨hr.clearance hc ht, rfl, rfl, rfl⟩

end Database

end CardSat
