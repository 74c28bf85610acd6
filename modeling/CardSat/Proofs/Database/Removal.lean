import CardSat.Proofs.Database

set_option autoImplicit false

/-! # Removing constraints

The three operations of the database that remove constraints are sweeps, and each ends with a
`Removal`. They differ in what they may remove: `reduce` gives up learnt clauses that are the reason
of nothing and leaves the trail alone; `removeSatisfied` removes what is satisfied at the ground
level; `truncate` removes what is younger than a snapshot.

A removal is described by five parameters: the literals that are dead already, whether the blockers
are to be trusted, a condition on worlds that the constraints are sound for, whether clauses may
lose false literals, and which constraints may be gone. The callers need different ones of these,
and they get all of them from one lemma for each operation.

## How the proof goes

The step of each sweep keeps the invariant `Sweeping`, whose three step lemmas are shared. A whole
sweep is the fold of its steps, and its end is a `Removal` (`Sweeping.removal`). Two sweeps in a row
are put together by `Removal.trans`, where the second sweep is one over a network that the first one
has left.
-/

namespace CardSat

namespace Database

variable {n : Network} {dead : Lit → Prop} {good : Prop} {R : World → Prop}
  {strengthened : Prop} {gone : Handle → Constraint → Prop} {db db' : Database} {s s' : Sweep}

/-- What a removal ends with. -/
structure Removal (n : Network) (dead : Lit → Prop) (good : Prop) (R : World → Prop)
    (strengthened : Prop) (gone : Handle → Constraint → Prop) (db' : Database) (s : Sweep) :
    Prop where
  sane : (s.network n).Sane dead n.index.line
  sound : (s.network n).Sound R
  watching : good → (s.network n).Watching fun _ _ => False
  thinned : n.Thinned (s.network n) strengthened gone
  listed : db'.Listed s.store
  removed : ∀ x ∈ s.removed.toList, s.store.get? x.1 = none
  accounted : ∀ a d, n.store.get? a = some d → s.store.get? a = none → (a, d) ∈ s.removed.toList
  stored : ∀ a ∈ db'.given.toList ++ db'.learnts.toList, (∃ d, n.store.get? a = some d) →
    ∃ d, s.store.get? a = some d

/-- The lists after constraints were removed. -/
theorem Listed.thinned (hl : db.Listed n.store) (ht : n.Thinned (s.network n) strengthened gone)
    (hgiven : ∀ h ∈ db'.given.toList, h ∈ db.given.toList)
    (hlearnts : ∀ h ∈ db'.learnts.toList, h ∈ db.learnts.toList)
    (hnd : (db'.given.toList ++ db'.learnts.toList).Nodup)
    (hlive : ∀ h c, s.store.get? h = some c → h ∈ db'.given.toList ++ db'.learnts.toList)
    (hserial : ∀ h ∈ db'.learnts.toList, ∀ c, n.store.get? h = some c →
      ∀ k, c.serial? = some k → k < db.nextSerial → k < db'.nextSerial) :
    db'.Listed s.store where
  nodup := hnd
  live := hlive
  issued h hh := by
    have hsize : s.store.slots.size = n.store.slots.size := ht.size
    rw [hsize]
    refine hl.issued h ?_
    rcases List.mem_append.1 hh with hh | hh
    · exact List.mem_append_left _ (hgiven h hh)
    · exact List.mem_append_right _ (hlearnts h hh)
  given h hh c hc := by
    obtain ⟨c₀, hc₀, hk, -⟩ := ht.left h c hc
    have := hl.given h (hgiven h hh) c₀ hc₀
    unfold Constraint.isLearnt at this ⊢
    rw [hk]
    exact this
  learnts h hh c hc := by
    obtain ⟨c₀, hc₀, hk, -⟩ := ht.left h c hc
    obtain ⟨k, hks, hlt⟩ := hl.learnts h (hlearnts h hh) c₀ hc₀
    refine ⟨k, ?_, hserial h hh c₀ hc₀ k hks hlt⟩
    unfold Constraint.serial? at hks ⊢
    rw [hk]
    exact hks

/-- A sweep that is through with its list is a removal, if the new lists are the constraints it
kept and those it did not look at. -/
theorem Sweeping.removal {others : List Handle}
    (hsw : Sweeping n dead good R strengthened gone others [] s) (hl : db.Listed n.store)
    (hlists : (db'.given.toList ++ db'.learnts.toList).Perm (others ++ s.kept.toList))
    (hgiven : ∀ h ∈ db'.given.toList, h ∈ db.given.toList)
    (hlearnts : ∀ h ∈ db'.learnts.toList, h ∈ db.learnts.toList)
    (hserial : ∀ h ∈ db'.learnts.toList, ∀ c, n.store.get? h = some c →
      ∀ k, c.serial? = some k → k < db.nextSerial → k < db'.nextSerial) :
    Removal n dead good R strengthened gone db' s where
  sane := hsw.sane
  sound := hsw.sound
  watching := hsw.watching
  thinned := hsw.thinned
  listed := hl.thinned hsw.thinned hgiven hlearnts
    (hlists.nodup_iff.2 (by simpa using hsw.nodup))
    (fun a d hd => hlists.mem_iff.2 (by simpa using hsw.live a d hd)) hserial
  removed := hsw.removed
  accounted := hsw.accounted
  stored a ha hd := by
    rcases List.mem_append.1 (hlists.mem_iff.1 ha) with ha | ha
    · obtain ⟨d, hd⟩ := hd
      exact ⟨d, (hsw.untouched a (by simpa using ha)).trans hd⟩
    · exact hsw.kept a ha

/-- One removal after another. What the second one removes, the first one has left as it was. -/
theorem Removal.trans {db₁ : Database} {s₁ : Sweep}
    (h₁ : Removal n dead good R strengthened gone db₁ s₁)
    (h₂ : Removal (s₁.network n) dead good R strengthened gone db' s)
    (hup : ∀ a c c', c'.kind = c.kind → (∀ w, c'.holds w = true → c.holds w = true) →
      gone a c' → gone a c)
    (hsame : ∀ a d d₁, n.store.get? a = some d → s₁.store.get? a = some d₁ →
      s.store.get? a = none → d₁ = d)
    (hlists : ∀ a ∈ db'.given.toList ++ db'.learnts.toList,
      a ∈ db₁.given.toList ++ db₁.learnts.toList)
    (hremoved : ∀ x ∈ s₁.removed.toList, x ∈ s.removed.toList) :
    Removal n dead good R strengthened gone db' s where
  sane := h₂.sane
  sound := h₂.sound
  watching := h₂.watching
  thinned := h₁.thinned.trans h₂.thinned hup
  listed := h₂.listed
  removed := h₂.removed
  accounted a d hd hno := by
    -- freed by the first sweep or by the second
    cases hd₁ : s₁.store.get? a with
    | none => exact hremoved _ (h₁.accounted a d hd hd₁)
    | some d₁ =>
        obtain rfl := hsame a d d₁ hd hd₁ hno
        exact h₂.accounted a d₁ hd₁ hno
  stored a ha hd := h₂.stored a ha (h₁.stored a (hlists a ha) hd)

/-! ## Satisfied constraints -/

/-- Whether a constraint holds wherever the literals of the trail do. -/
def Settled (t : Trail) (c : Constraint) : Prop :=
  ∀ w : World, (∀ l ∈ t, l.holds w = true) → c.holds w = true

/-- Being settled does not depend on reasons. -/
theorem Settled.of_cleared {t t' : Trail} {c : Constraint} (ht : t.Cleared t')
    (h : Settled t' c) : Settled t c :=
  fun w hw => h w fun l hl => hw l (ht.mem_iff.1 hl)

/-- At the ground level a clause that is not satisfied may lose false literals. -/
theorem strengthens_of_retainSuffix {h : Handle} {c c' : Constraint} {line : Lit → List Watcher}
    (hs : (s.network n).Sane dead line) (hc : s.store.get? h = some c) (ha : c.isAtMost = false)
    (hb : c.isSatisfied s.trail = .ok false)
    (hground : ∀ l ∈ s.trail, s.trail.levelOf l.var = 0)
    (hok : c.retainSuffix 2 (fun l => return !(← s.trail.isFalse l)) = .ok c') (counts : Counts) :
    (s.network n).Strengthens
      ((⟨s.store.put h c', s.trail, counts, s.kept, s.removed⟩ : Sweep).network n) h c c' := by
  have hcf : c.WellFormed s.trail.varCount := hs.formed h c hc
  -- the test that a literal passes when it is kept
  have htest : ∀ (l : Lit) (r : Bool), (do return !(← s.trail.isFalse l) : Checked Bool) = .ok r →
      r = !decide (s.trail.truth l = .no) := by
    intro l r hr
    simp only [bind_eq_ok, pure_eq_ok] at hr
    obtain ⟨x, hx, rfl⟩ := hr
    rw [(Trail.isFalse_eq_ok hx).2]
  simp only [Constraint.retainSuffix, bind_eq_ok, pure_eq_ok] at hok
  obtain ⟨lits, hlits, rfl⟩ := hok
  have htake := (Constraint.retainFrom_ok htest hcf.two_le hlits).1
  have hperm := Constraint.perm_of_retainFrom htest hcf.two_le hlits
  have hsub := Constraint.subperm_of_retainFrom htest hcf.two_le hlits
  refine ⟨hc, ha, rfl, ?_, fun l hl => hsub.subset hl, fun l hl => ?_, ?_, ?_,
    Constraint.not_mem_of_isSatisfied hs.trail ha hb, rfl, rfl⟩
  -- the first two literals are not touched, so the clause is on watch under the same literals
  · have ha' : ({ c with lits } : Constraint).isAtMost = false := ha
    rw [Constraint.watchedLits, Constraint.watchers_clause ha', Constraint.watchedLits,
      Constraint.watchers_clause ha]
    exact htake
  · by_cases hno : s.trail.truth l = .no
    · have hneg := (hs.trail.truth_no l).1 hno
      exact Or.inr ⟨hneg, hground l.neg hneg⟩
    · rw [← List.take_append_drop 2 c.lits.toList, List.mem_append] at hl
      refine Or.inl (hperm.mem_iff.2 (List.mem_append.2 (hl.imp_right fun hl => ?_)))
      exact List.mem_filter.2 ⟨hl, by simpa using hno⟩
  · obtain ⟨ls, hls, hsubls⟩ := hsub
    exact ((hls.map Lit.var).nodup_iff).1 (hcf.distinct.sublist (hsubls.map Lit.var))
  · have hlen := congrArg List.length htake
    simp only [List.length_take, Array.length_toList] at hlen
    have h2 : 2 ≤ c.lits.size := hcf.two_le
    show 2 ≤ lits.size
    omega

/-- A step of the removal of satisfied constraints keeps the invariant: it frees a constraint that
is satisfied, strengthens a clause that is not, or keeps what it comes to. -/
theorem sweeping_of_sweepSatisfied {st : Bool} {others rest : List Handle} {h : Handle}
    (hsw : Sweeping n dead good R (st = true) gone others (h :: rest) s)
    (hground : ∀ l ∈ n.trail, n.trail.levelOf l.var = 0)
    (hdead : st = true → ∀ l, l.neg ∈ n.trail → dead l)
    (hgone : ∀ c, n.store.get? h = some c → Settled n.trail c → gone h c)
    (hok : sweepSatisfied st s h = .ok s') :
    Sweeping n dead good R (st = true) gone others rest s' ∧
      (∀ a ∈ s'.kept.toList, a ∈ s.kept.toList ∨ a = h) ∧
      ∀ x ∈ s.removed.toList, x ∈ s'.removed.toList := by
  have ht := hsw.thinned.trail
  have hpush : ∀ a ∈ (s.kept.push h).toList, a ∈ s.kept.toList ∨ a = h := by
    intro a ha
    simpa using ha
  simp only [sweepSatisfied, bind_eq_ok, Store.fetch_eq_ok] at hok
  obtain ⟨c, hc, b, hb, hok⟩ := hok
  have hcf : c.WellFormed s.trail.varCount := hsw.sane.formed h c hc
  have hcn : n.store.get? h = some c := by
    rw [← hsw.untouched h (by simp)]
    exact hc
  cases b with
  | true =>
      rw [if_pos rfl] at hok
      -- satisfied on the present trail, and so on the one at the start: only reasons differ
      have hset : Settled n.trail c := .of_cleared ht fun w hw =>
        Constraint.holds_of_isSatisfied hsw.sane.trail hcf hb hw
      obtain ⟨-, hkept, hremoved, -⟩ := frees_of_drop hsw.sane hc hok
      refine ⟨hsw.drop hc (hgone c hcn hset) hok, ?_, ?_⟩
      · rw [hkept]
        exact fun a ha => Or.inl ha
      · rw [hremoved, Array.toList_push]
        exact fun x hx => List.mem_append_left _ hx
  | false =>
      simp only [Bool.false_eq_true, if_false] at hok
      split at hok
      next hyes =>
          rw [Bool.and_eq_true, Bool.not_eq_true'] at hyes
          obtain ⟨hst, ha⟩ := hyes
          simp only [bind_eq_ok, pure_eq_ok] at hok
          obtain ⟨c', hc', rfl⟩ := hok
          have hground' : ∀ l ∈ s.trail, s.trail.levelOf l.var = 0 := fun l hl =>
            (ht.level l.var).trans (hground l (ht.mem_iff.1 hl))
          exact ⟨hsw.strengthen hst
            (strengthens_of_retainSuffix hsw.sane hc ha hb hground' hc' _)
            fun l hl _ => hdead hst l (ht.mem_iff.1 hl), hpush, fun _ => id⟩
      next =>
          obtain rfl := pure_eq_ok.1 hok
          exact ⟨hsw.keep hc, hpush, fun _ => id⟩

/-- So does a whole sweep over a list. -/
theorem swept_of_foldlM {st : Bool} {others as : List Handle}
    (hsw : Sweeping n dead good R (st = true) gone others as s)
    (hkept : s.kept = #[]) (hground : ∀ l ∈ n.trail, n.trail.levelOf l.var = 0)
    (hdead : st = true → ∀ l, l.neg ∈ n.trail → dead l)
    (hgone : ∀ h ∈ as, ∀ c, n.store.get? h = some c → Settled n.trail c → gone h c)
    (hok : as.foldlM (sweepSatisfied st) s = .ok s') :
    Sweeping n dead good R (st = true) gone others [] s' ∧ (∀ a ∈ s'.kept.toList, a ∈ as) ∧
      ∀ x ∈ s.removed.toList, x ∈ s'.removed.toList := by
  -- what is kept comes from the list, and what was removed stays removed
  let P : List Handle → Sweep → Prop := fun rest s₁ =>
    Sweeping n dead good R (st = true) gone others rest s₁ ∧ (∀ a ∈ rest, a ∈ as) ∧
      (∀ a ∈ s₁.kept.toList, a ∈ as) ∧ ∀ x ∈ s.removed.toList, x ∈ s₁.removed.toList
  have hend : P [] s' := by
    refine foldlM_ok P ?_ ⟨hsw, fun _ => id, by simp [hkept], fun _ => id⟩ hok
    rintro h rest s₁ s₂ ⟨hsw₁, hrest, hsub, hrem⟩ hstep
    obtain ⟨hsw₂, hk, hrem₂⟩ :=
      sweeping_of_sweepSatisfied hsw₁ hground hdead (hgone h (hrest h (by simp))) hstep
    refine ⟨hsw₂, fun a ha => hrest a (List.mem_cons_of_mem _ ha), fun a ha => ?_,
      fun x hx => hrem₂ x (hrem x hx)⟩
    rcases hk a ha with ha | rfl
    · exact hsub a ha
    · exact hrest a (by simp)
  exact ⟨hend.1, hend.2.2⟩

/-- What `removeSatisfied` may remove: settled learnt clauses and, if asked to, settled given
constraints. -/
def MayRemove (db : Database) (t : Trail) (givenToo : Prop) (h : Handle) (c : Constraint) : Prop :=
  (h ∈ db.learnts.toList ∨ givenToo) ∧ Settled t c

/-- Removing satisfied constraints at the ground level is a removal of what is settled. -/
theorem removal_of_removeSatisfied {givenToo st : Bool} (hs : n.Sane dead n.index.line)
    (hr : n.Sound R) (hw : good → n.Watching fun _ _ => False) (hl : db.Listed n.store)
    (hdead : st = true → ∀ l, l.neg ∈ n.trail → dead l)
    (hok : db.removeSatisfied n.store n.trail givenToo st = .ok (db', s)) :
    Removal n dead good R (st = true) (db.MayRemove n.trail (givenToo = true)) db' s ∧
      db'.units = db.units ∧ db'.nextSerial = db.nextSerial ∧
      (givenToo = false → db'.given = db.given) ∧ (∀ h ∈ db'.given.toList, h ∈ db.given.toList) ∧
      ∀ h ∈ db'.learnts.toList, h ∈ db.learnts.toList := by
  simp only [removeSatisfied, bind_eq_ok, require_eq_ok] at hok
  obtain ⟨_, hgr, s₁, hfold, hok⟩ := hok
  -- at the ground level every literal on the trail holds for good
  have hground : ∀ l ∈ n.trail, n.trail.levelOf l.var = 0 := by
    intro l hl
    have := hs.trail.levelOf_le hl
    simp only [Trail.isGround, beq_iff_eq] at hgr
    omega
  rw [← Array.foldlM_toList] at hfold
  have hstart : Sweeping n dead good R (st = true) (db.MayRemove n.trail (givenToo = true))
      db.given.toList db.learnts.toList (Sweep.start db n.store n.trail) :=
    Sweeping.start (s := Sweep.start db n.store n.trail) (n := n) hs hr hw rfl hl.nodup hl.live
      (by simp [Sweep.start])
  obtain ⟨hsw₁, hsub₁, -⟩ := swept_of_foldlM hstart rfl hground hdead
    (fun h hh c _ hset => ⟨Or.inl hh, hset⟩) hfold
  have hrem₁ : Removal n dead good R (st = true) (db.MayRemove n.trail (givenToo = true))
      { db with learnts := s₁.kept, counts := s₁.counts } s₁ :=
    hsw₁.removal hl (.refl _) (fun _ => id) hsub₁ fun _ _ _ _ _ _ => id
  split at hok
  next hyes =>
      -- where the given constraints are examined too, a second sweep goes over them
      rw [Bool.and_eq_true] at hyes
      simp only [bind_eq_ok, pure_eq_ok, Prod.mk.injEq] at hok
      obtain ⟨s₂, hfold₂, rfl, rfl⟩ := hok
      rw [← Array.foldlM_toList] at hfold₂
      have ht₁ := hrem₁.thinned.trail
      have hstart₂ : Sweeping (s₁.network n) dead good R (st = true)
          (db.MayRemove n.trail (givenToo = true)) s₁.kept.toList db.given.toList
          { s₁ with kept := #[] } :=
        Sweeping.start (s := { s₁ with kept := #[] }) (n := n) hrem₁.sane hrem₁.sound
          hrem₁.watching rfl (List.nodup_append_comm.1 hrem₁.listed.nodup)
          (fun a d hd => List.perm_append_comm.mem_iff.1 (hrem₁.listed.live a d hd)) hrem₁.removed
      obtain ⟨hsw₂, hsub₂, hremoved⟩ := swept_of_foldlM hstart₂ rfl
        (fun l hl => (ht₁.level l.var).trans (hground l (ht₁.mem_iff.1 hl)))
        (fun hst l hl => hdead hst l (ht₁.mem_iff.1 hl))
        (fun h _ c _ hset => ⟨Or.inr hyes.1, .of_cleared ht₁ hset⟩) hfold₂
      have hrem₂ : Removal (s₁.network n) dead good R (st = true)
          (db.MayRemove n.trail (givenToo = true))
          { db with given := s₂.kept, learnts := s₁.kept, counts := s₂.counts } s₂ :=
        hsw₂.removal hrem₁.listed List.perm_append_comm hsub₂ (fun _ => id) fun _ _ _ _ _ _ => id
      refine ⟨hrem₁.trans hrem₂ (fun a c c' _ hcc hg => ⟨hg.1, fun w hw => hcc w (hg.2 w hw)⟩)
        (fun a d d₁ hd hd₁ hno => ?_) (fun a ha => ?_) hremoved, rfl, rfl, fun hno => ?_,
        hsub₂, hsub₁⟩
      · -- the first sweep has not looked at what the second one removes
        rcases List.mem_append.1 (hrem₁.listed.live a d₁ hd₁) with hmem | hmem
        · have hsame := hsw₁.untouched a (by simpa using hmem)
          rw [hd, hd₁] at hsame
          exact Option.some.inj hsame
        · have hsame := (hsw₂.untouched a (by simpa using hmem)).trans hd₁
          rw [hno] at hsame
          cases hsame
      · exact List.mem_append.2 ((List.mem_append.1 ha).imp_left (hsub₂ a))
      · rw [hno] at hyes
        cases hyes.1
  next =>
      simp only [pure_eq_ok, Prod.mk.injEq] at hok
      obtain ⟨rfl, rfl⟩ := hok
      exact ⟨hrem₁, rfl, rfl, fun _ => rfl, fun _ => id, hsub₁⟩

/-! ## Learnt clauses given up -/

/-- One step of `reduce`: the clause is given up if `p` says so, unless it is short or locked. -/
def Sweep.giveUp (p : Bool) (s : Sweep) (h : Handle) (c : Constraint) : Checked Sweep := do
  let locked ← if c.size > 2 then s.trail.isReasonFor h (← c.head) else pure true
  if !locked && p then s.drop h c else return s.keep h

/-- The clause is given up, or it is kept. -/
theorem giveUp_eq_ok {h : Handle} {c : Constraint} {p : Bool} (hok : s.giveUp p h c = .ok s') :
    s.drop h c = .ok s' ∨ s' = s.keep h := by
  have hboth : ∀ q : Bool, (if q then s.drop h c else pure (s.keep h) : Checked Sweep) = .ok s' →
      s.drop h c = .ok s' ∨ s' = s.keep h := by
    intro q hq
    cases q with
    | true => exact Or.inl hq
    | false => exact Or.inr (pure_eq_ok.1 hq).symm
  dsimp only [Sweep.giveUp] at hok
  split at hok
  next =>
      simp only [bind_eq_ok] at hok
      obtain ⟨_, -, _, -, hok⟩ := hok
      exact hboth _ hok
  next => exact hboth (!true && p) hok

/-- A clause is locked if it is the reason of a literal on the trail: then this literal is the first
one of the clause. -/
theorem isReasonFor_iff {line : Lit → List Watcher} {h : Handle} {c : Constraint} {first : Lit}
    {locked : Bool} (hs : n.Sane dead line) (hc : n.store.get? h = some c)
    (ha : c.isAtMost = false) (hfirst : c.lits[0]? = some first)
    (hlocked : n.trail.isReasonFor h first = .ok locked) :
    locked = true ↔ ∃ m ∈ n.trail, n.trail.reasonOf m.var = some h := by
  rw [isReasonFor_eq_ok hlocked]
  constructor
  · rintro ⟨htr, hreason⟩
    obtain ⟨m, hm, hmv⟩ := hs.trail.exists_mem_of_truth htr
    exact ⟨m, hm, hmv ▸ hreason⟩
  · rintro ⟨m, hm, hreason⟩
    obtain ⟨i, hi⟩ := List.mem_iff_getElem?.1 hm
    -- a clause explains its first literal only
    obtain ⟨d, hd, he⟩ := hs.reasons i m h hi hreason
    obtain rfl := Option.some.inj (hc.symm.trans hd)
    have hhead := (he.clause ha).1
    rw [List.head?_eq_getElem?, Array.getElem?_toList, hfirst] at hhead
    obtain rfl := Option.some.inj hhead
    exact ⟨by rw [(hs.trail.truth_yes first).2 hm]; decide, hreason⟩

/-- A clause is dropped if it is longer than two, the reason of nothing on the trail and to be given
up, and then the trail stays as it is. Every other clause is kept. -/
theorem giveUp_cases {line : Lit → List Watcher} {h : Handle} {c : Constraint} {p : Bool}
    (hs : (s.network n).Sane dead line) (hc : s.store.get? h = some c) (ha : c.isAtMost = false)
    (hok : s.giveUp p h c = .ok s') :
    ((2 < c.size ∧ (∀ m ∈ s.trail, s.trail.reasonOf m.var ≠ some h) ∧ p = true) ∧
        s.drop h c = .ok s' ∧ s'.trail = s.trail) ∨
      (¬(2 < c.size ∧ (∀ m ∈ s.trail, s.trail.reasonOf m.var ≠ some h) ∧ p = true) ∧
        s' = s.keep h) := by
  dsimp only [Sweep.giveUp] at hok
  split at hok
  next hlong =>
      simp only [bind_eq_ok, Constraint.head, fetch_eq_ok] at hok
      obtain ⟨first, hfirst, locked, hlocked, hok⟩ := hok
      have hiff := isReasonFor_iff hs hc ha hfirst hlocked
      split at hok
      next hyes =>
          rw [Bool.and_eq_true, Bool.not_eq_true'] at hyes
          obtain ⟨rfl, rfl⟩ := hyes
          have hno : ∀ m ∈ s.trail, s.trail.reasonOf m.var ≠ some h := fun m hm hreason =>
            Bool.false_ne_true (hiff.2 ⟨m, hm, hreason⟩)
          -- no literal of the clause has it as its reason, so no reason is cleared
          have hsame := (frees_of_drop hs hc hok).2.2.2
          refine .inl ⟨⟨hlong, hno, rfl⟩, hok, hsame fun l _ htr hreason => ?_⟩
          obtain ⟨m, hm, hmv⟩ := Trail.Valid.exists_mem_of_truth hs.trail htr
          exact hno m hm (hmv ▸ hreason)
      next hno =>
          refine .inr ⟨fun hgive => hno ?_, (pure_eq_ok.1 hok).symm⟩
          obtain ⟨-, hfree, rfl⟩ := hgive
          cases locked with
          | true =>
              obtain ⟨m, hm, hreason⟩ := hiff.1 rfl
              exact absurd hreason (hfree m hm)
          | false => rfl
  next hshort => exact .inr ⟨fun hgive => hshort hgive.1, (pure_eq_ok.1 hok).symm⟩

/-- Keeping or freeing a learnt clause keeps the invariant and leaves the trail alone, since a
clause that is a reason is kept. -/
theorem sweeping_of_giveUp {others rest : List Handle} {h : Handle} {c : Constraint} {p : Bool}
    (hsw : Sweeping n dead good R strengthened gone others (h :: rest) s)
    (hc : n.store.get? h = some c) (ha : c.isAtMost = false) (hgone : gone h c)
    (hok : s.giveUp p h c = .ok s') :
    Sweeping n dead good R strengthened gone others rest s' ∧ s'.trail = s.trail ∧
      ∀ a ∈ s'.kept.toList, a ∈ s.kept.toList ∨ a = h := by
  have hcs : s.store.get? h = some c := (hsw.untouched h (by simp)).trans hc
  rcases giveUp_cases hsw.sane hcs ha hok with ⟨-, hdrop, htrail⟩ | ⟨-, rfl⟩
  · obtain ⟨-, hkept, -⟩ := frees_of_drop hsw.sane hcs hdrop
    exact ⟨hsw.drop hcs hgone hdrop, htrail, fun a ha => Or.inl (hkept ▸ ha)⟩
  · exact ⟨hsw.keep hcs, rfl, fun a ha => by simpa [Sweep.keep] using ha⟩

/-- Looking up a list of handles. -/
theorem mapM_fetch {store : Store} : ∀ {hs : List Handle} {cs : List (Handle × Constraint)},
    (hs.mapM fun h => return (h, ← store.fetch h) : Checked _) = .ok cs →
      cs.map Prod.fst = hs ∧ ∀ x ∈ cs, store.get? x.1 = some x.2 := by
  intro hs
  induction hs with
  | nil =>
      intro cs h
      rw [List.mapM_nil, pure_eq_ok] at h
      subst h
      exact ⟨rfl, by simp⟩
  | cons a hs ih =>
      intro cs h
      simp only [List.mapM_cons, bind_eq_ok, pure_eq_ok, Store.fetch_eq_ok] at h
      obtain ⟨x, ⟨c, hc, rfl⟩, cs', hcs', rfl⟩ := h
      obtain ⟨hfst, hget⟩ := ih hcs'
      refine ⟨by rw [List.map_cons, hfst], fun x hx => ?_⟩
      rcases List.mem_cons.1 hx with rfl | hx
      · exact hc
      · exact hget x hx

/-- The learnt clauses in the order in which they are given up. -/
def rank (entries : List (Handle × Constraint)) : List (Handle × Constraint) :=
  entries.mergeSort fun a b => (givenUpBefore a.2 b.2).isLE

/-- A ranking forgets no clause. -/
theorem rank_perm (entries : List (Handle × Constraint)) : (rank entries).Perm entries :=
  List.mergeSort_perm _ _

/-- Nor do the handles of the ranking. -/
theorem map_rank_perm (entries : List (Handle × Constraint)) :
    ((rank entries).zipIdx.map fun x => x.1.1).Perm (entries.map Prod.fst) :=
  calc (rank entries).zipIdx.map (fun x => x.1.1)
      = ((rank entries).zipIdx.map Prod.fst).map Prod.fst := by
        rw [List.map_map]
        rfl
    _ = (rank entries).map Prod.fst := by rw [List.zipIdx_map_fst]
    List.Perm _ (entries.map Prod.fst) := (rank_perm entries).map Prod.fst

/-- The steps of `reduce`: it looks up the learnt clauses, ranks them and goes through the ranking,
the first half of which it gives up whatever the activities are. -/
theorem reduce_ranked {store : Store} {t : Trail} (hok : db.reduce store t = .ok (db', s)) :
    ∃ entries : List (Handle × Constraint), entries.map Prod.fst = db.learnts.toList ∧
      (∀ x ∈ entries, store.get? x.1 = some x.2) ∧
      (rank entries).zipIdx.foldlM (fun s x => s.giveUp (decide (x.2 < (rank entries).length / 2) ||
        decide (x.1.2.activity < db.increment / (rank entries).length.toFloat)) x.1.1 x.1.2)
          (Sweep.start db store t) = .ok s ∧
      db' = { db with learnts := s.kept, counts := s.counts } := by
  simp only [reduce, bind_eq_ok, pure_eq_ok, Prod.mk.injEq] at hok
  obtain ⟨entries, hmap, s', hfold, rfl, rfl⟩ := hok
  obtain ⟨hfst, hget⟩ := mapM_fetch hmap
  exact ⟨entries, hfst, hget, hfold, rfl⟩

/-- It goes through the learnt clauses in some order, and gives up those of which `p` says so. -/
theorem reduce_eq_ok {store : Store} {t : Trail} (hl : db.Listed store)
    (hok : db.reduce store t = .ok (db', s)) :
    ∃ (xs : List ((Handle × Constraint) × Nat)) (p : (Handle × Constraint) × Nat → Bool),
      (xs.map fun x => x.1.1).Perm db.learnts.toList ∧
      (∀ x ∈ xs, store.get? x.1.1 = some x.1.2 ∧ x.1.1 ∈ db.learnts.toList ∧
        x.1.2.isAtMost = false) ∧
      xs.foldlM (fun s x => s.giveUp (p x) x.1.1 x.1.2) (Sweep.start db store t) = .ok s ∧
      db' = { db with learnts := s.kept, counts := s.counts } := by
  obtain ⟨entries, hfst, hget, hfold, rfl⟩ := reduce_ranked hok
  refine ⟨(rank entries).zipIdx, _, hfst ▸ map_rank_perm entries, fun x hx => ?_, hfold, rfl⟩
  have hx' := (rank_perm entries).mem_iff.1 (List.fst_mem_of_mem_zipIdx hx)
  have hmem : x.1.1 ∈ db.learnts.toList := hfst ▸ List.mem_map_of_mem hx'
  obtain ⟨k, hk, -⟩ := hl.learnts x.1.1 hmem x.1.2 (hget x.1 hx')
  exact ⟨hget x.1 hx', hmem, isAtMost_of_serial? hk⟩

/-- Giving up learnt clauses is a removal that leaves the trail as it is. -/
theorem removal_of_reduce (hs : n.Sane dead n.index.line) (hr : n.Sound R)
    (hw : good → n.Watching fun _ _ => False) (hl : db.Listed n.store)
    (hok : db.reduce n.store n.trail = .ok (db', s)) :
    Removal n dead good R False (fun h _ => h ∈ db.learnts.toList) db' s ∧ s.trail = n.trail ∧
      db'.units = db.units ∧ db'.nextSerial = db.nextSerial ∧ db'.given = db.given ∧
      ∀ h ∈ db'.learnts.toList, h ∈ db.learnts.toList := by
  obtain ⟨xs, p, hperm, hclause, hfold, rfl⟩ := reduce_eq_ok hl hok
  -- the given constraints stand apart, for only learnt clauses are ranked
  let P : List ((Handle × Constraint) × Nat) → Sweep → Prop := fun rest s₁ =>
    Sweeping n dead good R False (fun h _ => h ∈ db.learnts.toList) db.given.toList
      (rest.map fun x => x.1.1) s₁ ∧ s₁.trail = n.trail ∧
      (∀ x ∈ rest, x ∈ xs) ∧ ∀ a ∈ s₁.kept.toList, a ∈ db.learnts.toList
  have hend : P [] s := by
    refine foldlM_ok P ?_ ⟨?_, rfl, fun _ => id, by simp [Sweep.start]⟩ hfold
    · rintro x rest s₁ s₂ ⟨hsw, htrail, hrest, hsub⟩ hstep
      obtain ⟨hc, hmem, ha⟩ := hclause x (hrest x (by simp))
      obtain ⟨hsw₂, htrail₂, hsub₂⟩ := sweeping_of_giveUp hsw hc ha hmem hstep
      refine ⟨hsw₂, htrail₂.trans htrail, fun y hy => hrest y (List.mem_cons_of_mem _ hy),
        fun a ha => ?_⟩
      rcases hsub₂ a ha with ha | rfl
      · exact hsub a ha
      · exact hmem
    · exact Sweeping.start (s := Sweep.start db n.store n.trail) (n := n) hs hr hw rfl
        ((hperm.append_left _).nodup_iff.2 hl.nodup)
        (fun a d hd => (hperm.append_left _).mem_iff.2 (hl.live a d hd)) (by simp [Sweep.start])
  obtain ⟨hsw, htrail, -, hsub⟩ := hend
  exact ⟨hsw.removal hl (.refl _) (fun _ => id) hsub fun _ _ _ _ _ _ => id, htrail, rfl, rfl, rfl,
    hsub⟩

/-! ## Going back to a snapshot -/

/-- What `truncate` may remove: the given constraints from a position on, and the learnt
clauses from a serial number on. -/
def Younger (db : Database) (given serial : Nat) (h : Handle) (c : Constraint) : Prop :=
  h ∈ db.given.toList.drop given ∨ ∃ k, c.serial? = some k ∧ serial ≤ k

/-- Dropping every constraint of a list. -/
theorem swept_of_drops {others as : List Handle}
    (hsw : Sweeping n dead good R strengthened gone others as s) (hgone : ∀ h ∈ as, ∀ c, gone h c)
    (hok : as.foldlM (fun (s : Sweep) h => do s.drop h (← s.store.fetch h)) s = .ok s') :
    Sweeping n dead good R strengthened gone others [] s' ∧ s'.kept = s.kept := by
  let P : List Handle → Sweep → Prop := fun rest s₁ =>
    Sweeping n dead good R strengthened gone others rest s₁ ∧ (∀ a ∈ rest, a ∈ as) ∧
      s₁.kept = s.kept
  have hend : P [] s' := by
    refine foldlM_ok P ?_ ⟨hsw, fun _ => id, rfl⟩ hok
    rintro h rest s₁ s₂ ⟨hsw₁, hrest, hkept⟩ hstep
    simp only [bind_eq_ok, Store.fetch_eq_ok] at hstep
    obtain ⟨c, hc, hstep⟩ := hstep
    exact ⟨hsw₁.drop hc (hgone h (hrest h (by simp)) c) hstep,
      fun a ha => hrest a (List.mem_cons_of_mem _ ha),
      (frees_of_drop hsw₁.sane hc hstep).2.1.trans hkept⟩
  exact ⟨hend.1, hend.2.2⟩

/-- What a truncation does with a learnt clause. -/
def Sweep.cut (serial : Nat) (s : Sweep) (h : Handle) : Checked Sweep := do
  let c ← s.store.fetch h
  match c.serial? with
  | some n => if n < serial then return s.keep h else s.drop h c
  | none => return s.keep h

/-- A step of the truncation keeps the invariant, and a clause that it keeps is older than the
snapshot. -/
theorem sweeping_of_cut {serial : Nat} {others rest : List Handle} {h : Handle}
    (hsw : Sweeping n dead good R strengthened gone others (h :: rest) s)
    (hgone : ∀ c k, c.serial? = some k → serial ≤ k → gone h c) (hok : s.cut serial h = .ok s') :
    Sweeping n dead good R strengthened gone others rest s' ∧
      (∀ a ∈ s'.kept.toList, a ∈ s.kept.toList ∨
        a = h ∧ ∀ c, n.store.get? h = some c → ∀ k, c.serial? = some k → k < serial) ∧
      ∀ x ∈ s.removed.toList, x ∈ s'.removed.toList := by
  simp only [Sweep.cut, bind_eq_ok, Store.fetch_eq_ok] at hok
  obtain ⟨c, hc, hok⟩ := hok
  have hcn : n.store.get? h = some c := (hsw.untouched h (by simp)).symm.trans hc
  -- a clause that is kept has a smaller serial, or none
  have hkeep : (∀ k, c.serial? = some k → k < serial) → ∀ a ∈ (s.keep h).kept.toList,
      a ∈ s.kept.toList ∨
        a = h ∧ ∀ c, n.store.get? h = some c → ∀ k, c.serial? = some k → k < serial := by
    intro hk a ha
    have ha' : a ∈ s.kept.toList ∨ a = h := by simpa [Sweep.keep] using ha
    refine ha'.imp_right fun he => ⟨he, fun d hd => ?_⟩
    obtain rfl := Option.some.inj (hcn.symm.trans hd)
    exact hk
  split at hok
  next k hk =>
      split at hok
      next hlt =>
          obtain rfl := pure_eq_ok.1 hok
          refine ⟨hsw.keep hc, hkeep fun k' hk' => ?_, fun _ => id⟩
          rw [hk] at hk'
          exact Option.some.inj hk' ▸ hlt
      next hge =>
          obtain ⟨-, hkept, hremoved, -⟩ := frees_of_drop hsw.sane hc hok
          refine ⟨hsw.drop hc (hgone c k hk (Nat.le_of_not_lt hge)) hok, fun a ha => ?_, ?_⟩
          · exact Or.inl (hkept ▸ ha)
          · rw [hremoved, Array.toList_push]
            exact fun x hx => List.mem_append_left _ hx
  next hnone =>
      obtain rfl := pure_eq_ok.1 hok
      refine ⟨hsw.keep hc, hkeep fun k hk => ?_, fun _ => id⟩
      rw [hnone] at hk
      cases hk

/-- So does the whole pass over the learnt clauses. -/
theorem swept_of_cuts {serial : Nat} {others as : List Handle}
    (hsw : Sweeping n dead good R strengthened gone others as s) (hkept : s.kept = #[])
    (hgone : ∀ h c k, c.serial? = some k → serial ≤ k → gone h c)
    (hok : as.foldlM (Sweep.cut serial) s = .ok s') :
    Sweeping n dead good R strengthened gone others [] s' ∧
      (∀ a ∈ s'.kept.toList, a ∈ as ∧
        ∀ c, n.store.get? a = some c → ∀ k, c.serial? = some k → k < serial) ∧
      ∀ x ∈ s.removed.toList, x ∈ s'.removed.toList := by
  let P : List Handle → Sweep → Prop := fun rest s₁ =>
    Sweeping n dead good R strengthened gone others rest s₁ ∧ (∀ a ∈ rest, a ∈ as) ∧
      (∀ a ∈ s₁.kept.toList, a ∈ as ∧
        ∀ c, n.store.get? a = some c → ∀ k, c.serial? = some k → k < serial) ∧
      ∀ x ∈ s.removed.toList, x ∈ s₁.removed.toList
  have hend : P [] s' := by
    refine foldlM_ok P ?_ ⟨hsw, fun _ => id, by simp [hkept], fun _ => id⟩ hok
    rintro h rest s₁ s₂ ⟨hsw₁, hrest, hsub, hrem⟩ hstep
    obtain ⟨hsw₂, hk, hrem₂⟩ := sweeping_of_cut hsw₁ (hgone h) hstep
    refine ⟨hsw₂, fun a ha => hrest a (List.mem_cons_of_mem _ ha), fun a ha => ?_,
      fun x hx => hrem₂ x (hrem x hx)⟩
    rcases hk a ha with ha | ⟨rfl, hlt⟩
    · exact hsub a ha
    · exact ⟨hrest a (by simp), hlt⟩
  exact ⟨hend.1, hend.2.2⟩

/-- Going back to a snapshot is a removal of what is younger. -/
theorem removal_of_truncate {given serial units : Nat} (hs : n.Sane dead n.index.line)
    (hr : n.Sound R) (hw : good → n.Watching fun _ _ => False) (hl : db.Listed n.store)
    (hok : db.truncate n.store n.trail given serial units = .ok (db', s)) :
    Removal n dead good R False (db.Younger given serial) db' s ∧
      db'.units = db.units.take units ∧ db'.nextSerial = min db.nextSerial serial ∧
      db'.given = db.given.take given ∧ ∀ h ∈ db'.learnts.toList, h ∈ db.learnts.toList := by
  simp only [truncate, bind_eq_ok, pure_eq_ok, Prod.mk.injEq] at hok
  obtain ⟨s₁, hfold₁, s₂, hfold₂, rfl, rfl⟩ := hok
  -- first the given constraints from a position on
  have hall : ((db.given.toList.take given ++ db.learnts.toList) ++
      (db.given.toList.drop given).reverse).Perm (db.given.toList ++ db.learnts.toList) := by
    have hswap := ((List.reverse_perm (db.given.toList.drop given)).append_left
      db.learnts.toList).trans List.perm_append_comm
    rw [List.append_assoc]
    refine (hswap.append_left _).trans ?_
    rw [← List.append_assoc, List.take_append_drop]
  have hstart₁ : Sweeping n dead good R False (db.Younger given serial)
      (db.given.toList.take given ++ db.learnts.toList) (db.given.toList.drop given).reverse
      (Sweep.start db n.store n.trail) :=
    Sweeping.start (s := Sweep.start db n.store n.trail) (n := n) hs hr hw rfl
      (hall.nodup_iff.2 hl.nodup) (fun a d hd => hall.mem_iff.2 (hl.live a d hd))
      (by simp [Sweep.start])
  obtain ⟨hsw₁, hkept₁⟩ := swept_of_drops hstart₁
    (fun a ha _ => Or.inl (List.mem_reverse.1 ha)) hfold₁
  have hrem₁ : Removal n dead good R False (db.Younger given serial)
      { db with given := db.given.take given } s₁ :=
    hsw₁.removal hl (by rw [hkept₁]; simp [Sweep.start])
      (fun a ha => List.mem_of_mem_take (by simpa using ha)) (fun _ => id) fun _ _ _ _ _ _ => id
  -- then the learnt clauses from a serial number on
  rw [← Array.foldlM_toList] at hfold₂
  have hstart₂ : Sweeping (s₁.network n) dead good R False (db.Younger given serial)
      (db.given.take given).toList db.learnts.toList s₁ :=
    Sweeping.start (s := s₁) (n := n) hrem₁.sane hrem₁.sound hrem₁.watching hkept₁
      hrem₁.listed.nodup hrem₁.listed.live hrem₁.removed
  obtain ⟨hsw₂, hsub₂, hremoved⟩ := swept_of_cuts hstart₂ hkept₁
    (fun _ _ k hk hle => Or.inr ⟨k, hk, hle⟩) hfold₂
  have hlearnts : ∀ a ∈ s₂.kept.toList, a ∈ db.learnts.toList := fun a ha => (hsub₂ a ha).1
  have hrem₂ : Removal (s₁.network n) dead good R False (db.Younger given serial)
      { db with
        given := db.given.take given, learnts := s₂.kept, counts := s₂.counts
        nextSerial := min db.nextSerial serial, units := db.units.take units } s₂ :=
    hsw₂.removal hrem₁.listed (.refl _) (fun _ => id) hlearnts
      fun a ha c hc k hk hlt => Nat.lt_min.2 ⟨hlt, (hsub₂ a ha).2 c hc k hk⟩
  refine ⟨hrem₁.trans hrem₂ (fun a c c' hk _ hg => ?_) (fun a d d₁ hd hd₁ _ => ?_) (fun a ha => ?_)
    hremoved, rfl, rfl, rfl, hlearnts⟩
  · unfold Younger Constraint.serial? at hg ⊢
    rwa [hk] at hg
  · obtain ⟨d', hd', -, -, -, he⟩ := hrem₁.thinned.left a d₁ hd₁
    obtain rfl := he id
    exact Option.some.inj (hd'.symm.trans hd)
  · exact List.mem_append.2 ((List.mem_append.1 ha).imp_right (hlearnts a))

end Database

end CardSat
