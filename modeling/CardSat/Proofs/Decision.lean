import CardSat.Proofs.Decision.Steps
import CardSat.Proofs.Table.Heap
import CardSat.Proofs.Trail

set_option autoImplicit false

/-! # No decision variable is lost

A variable leaves the queue when it is picked or found assigned, and comes back when its value is
taken back. `Decisions.Ready` is the invariant behind this: every free decision variable waits in
the queue, and only known variables do (`Decisions.Known`). When nothing can be picked, every
decision variable has a value (`pick_ready`), which is what the answer to a satisfiable problem
rests on.

## How it is used

The invariant has the set of the free variables as a parameter, and not the trail they are free on.
So each of the steps that a backjump is made of has its own lemma: taking back a value makes one
more variable free and puts it into the queue (`takeBack_ready`), and a pick that takes a variable
out of the queue leaves the invariant for the others (`Ready.pop`). The trail comes back in where
the two meet.

What the queue is ordered by plays no role here. Which variable is picked is in
`Proofs.Decision.Rule`.
-/

namespace CardSat

/-- A known variable without a value. -/
def Trail.Free (t : Trail) (v : Var) : Prop :=
  v.index < t.varCount ∧ (t.cellOf v).value.isUnset = true

namespace Decisions

/-- Whether a variable may be decided, if it is known. -/
def decides (d : Decisions) (v : Var) : Option Bool := (d.choices.get? v.index).map Choice.decision

/-- Only known variables wait in the queue or come first in the order of the caller. -/
structure Known (d : Decisions) : Prop where
  queued : ∀ v ∈ d.queue.items.toList, (d.decides v).isSome = true
  ordered : ∀ l ∈ d.order.toList, (d.decides l.var).isSome = true

/-- Every decision variable among the free ones waits in the queue, only known variables do, and
every known one has an activity. -/
structure Ready (d : Decisions) (free : Var → Prop) : Prop where
  listed : d.queue.Listed
  waiting : ∀ v, free v → d.decides v = some true → v ∈ d.queue.items.toList
  rated : ∀ v, (d.decides v).isSome = true → (d.activities.get? v.index).isSome = true
  known : d.Known

variable {d d' : Decisions} {free free' : Var → Prop} {t : Trail} {v : Var}

/-- A queue with fewer variables and the same order of the caller is still known. -/
theorem Known.of_sub (h : d.Known) (hd : d'.decides = d.decides)
    (hqueue : ∀ v ∈ d'.queue.items.toList, v ∈ d.queue.items.toList) (horder : d'.order = d.order) :
    d'.Known :=
  ⟨fun v hv => hd ▸ h.queued v (hqueue v hv), fun l hl => hd ▸ h.ordered l (horder ▸ hl)⟩

/-- Fewer variables may be free. -/
theorem Ready.mono (h : d.Ready free) (hsub : ∀ v, free' v → free v) : d.Ready free' :=
  ⟨h.listed, fun v hv => h.waiting v (hsub v hv), h.rated, h.known⟩

/-- What may be decided after the choice of one variable has changed. -/
theorem decides_eq {u : Var} {c : Choice}
    (h : ∀ i, d'.choices.get? i = if i = u.index then some c else d.choices.get? i) (v : Var) :
    d'.decides v = if v = u then some c.decision else d.decides v := by
  rw [decides, h, decides]
  simp only [Var.index_inj]
  split <;> rfl

/-- Noting the side of a variable does not change whether it is to be decided. -/
theorem decides_note {l : Lit} {c : Choice} (hc : d.choices.get? l.var.index = some c) (b : Bool) :
    (d.note l (c.after b l)).decides = d.decides := by
  funext v
  rw [decides_eq (fun i => SparseTable.get?_insert _ _ _ i) v]
  split
  next he => rw [he, decides, hc, Option.map_some]; rfl
  next => rfl

/-- A variable put into the queue may be free. -/
theorem Ready.enqueue (h : d.Ready free) {u : Var} (hu : (d.decides u).isSome = true) :
    (d.enqueue u).Ready fun v => free v ∨ v = u := by
  refine ⟨VarHeap.listed_insert h.listed, fun v hv hd => ?_, h.rated, fun v hv => ?_,
    h.known.ordered⟩
  · refine (VarHeap.mem_insert h.listed v).2 ?_
    rcases hv with hv | rfl
    · exact Or.inr (h.waiting v hv hd)
    · exact Or.inl rfl
  · rcases (VarHeap.mem_insert h.listed v).1 hv with rfl | hv
    · exact hu
    · exact h.known.queued v hv

/-- There is nothing to wait for at the start. -/
theorem ready_empty {s : DecisionSettings} (h : empty s = .ok d) : d.Ready fun _ => False := by
  simp only [empty, bind_eq_ok, pure_eq_ok] at h
  obtain ⟨g, -, rfl⟩ := h
  exact ⟨VarHeap.listed_empty, fun v hv => hv.elim, fun v hv => by simp [decides] at hv,
    ⟨by simp [VarHeap.empty], by simp⟩⟩

/-- No variable is known at the start. -/
theorem decides_empty {s : DecisionSettings} (h : empty s = .ok d) (v : Var) :
    d.decides v = none := by
  simp only [empty, bind_eq_ok, pure_eq_ok] at h
  obtain ⟨g, -, rfl⟩ := h
  simp [decides]

/-! ## Values taken back -/

/-- A variable whose value was taken back is free again. -/
theorem takeBack_ready {l : Lit} {top : Bool} (h : d.takeBack l top = .ok d')
    (hr : d.Ready free) : (d'.Ready fun v => free v ∨ v = l.var) ∧ d'.decides = d.decides := by
  obtain ⟨c, hc, hd'⟩ := takeBack_eq_ok.1 h
  have hsame := decides_note hc (d.settings.phaseSaving.remembers top)
  generalize c.after (d.settings.phaseSaving.remembers top) l = c' at hd' hsame
  have hr' : (d.note l c').Ready free :=
    ⟨hr.listed, fun v hv hd => hr.waiting v hv (hsame ▸ hd), fun v hv => hr.rated v (hsame ▸ hv),
      hr.known.of_sub hsame (fun _ => id) rfl⟩
  subst hd'
  split
  next => exact ⟨hr'.enqueue (by rw [hsame]; simp [decides, hc]), hsame⟩
  next hno =>
      refine ⟨⟨hr'.listed, fun v hv hd => ?_, hr'.rated, hr'.known⟩, hsame⟩
      rcases hv with hv | rfl
      · exact hr'.waiting v hv hd
      · -- the variable is not a decision variable
        rw [hsame, decides, hc, Option.map_some] at hd
        exact absurd (Option.some.inj hd) hno

/-- Taking back a list of values. -/
theorem foldlM_takeBack_ready {α : Type} {g : α → Lit} {top : α → Bool} {as : List α}
    (h : as.foldlM (fun (d : Decisions) a => d.takeBack (g a) (top a)) d = .ok d')
    (hr : d.Ready free) :
    (d'.Ready fun v => free v ∨ ∃ a ∈ as, v = (g a).var) ∧ d'.decides = d.decides := by
  induction as generalizing d free with
  | nil =>
      rw [List.foldlM_nil, pure_eq_ok] at h
      subst h
      exact ⟨hr.mono (by rintro v (hv | ⟨a, ha, -⟩); exacts [hv, absurd ha List.not_mem_nil]), rfl⟩
  | cons a as ih =>
      rw [List.foldlM_cons, bind_eq_ok] at h
      obtain ⟨d₁, h₁, h⟩ := h
      obtain ⟨hr₁, hd₁⟩ := takeBack_ready h₁ hr
      obtain ⟨hr', hd'⟩ := ih h hr₁
      refine ⟨hr'.mono ?_, hd'.trans hd₁⟩
      rintro v (hv | ⟨b, hb, rfl⟩)
      · exact Or.inl (Or.inl hv)
      · rcases List.mem_cons.1 hb with rfl | hb
        · exact Or.inl (Or.inr rfl)
        · exact Or.inr ⟨b, hb, rfl⟩

/-! ## Activities and the queue -/

/-- Raising the activity of a variable forgets none. -/
theorem isSome_raise (u : Var) (x : Float) (h : (d.activities.get? v.index).isSome = true) :
    ((d.raise u x).get? v.index).isSome = true := by
  rw [raise]
  split
  · rw [SparseTable.get?_insert, SparseTable.get?_map]
    split
    · exact Option.isSome_some
    · exact Option.isSome_map.trans h
  · rw [SparseTable.get?_insert]
    split
    · exact Option.isSome_some
    · exact h

/-- A bump moves a variable in the queue and takes none out. -/
theorem bump_ready {u : Var} (h : d.bump u = .ok d') (hr : d.Ready free) :
    d'.Ready free ∧ d'.decides = d.decides := by
  obtain ⟨a, increment, -, rfl⟩ := exists_of_bump h
  have hs := VarHeap.sifted_update (moreActive (d.raise u (a + d.increment))) d.queue u
  have hrated : ∀ v, (d.decides v).isSome = true →
      ((d.raise u (a + d.increment)).get? v.index).isSome = true :=
    fun v hv => isSome_raise u _ (hr.rated v hv)
  generalize d.raise u (a + d.increment) = activities at hs hrated ⊢
  exact ⟨⟨hs.listed hr.listed, fun v hv hd => hs.perm.mem_iff.2 (hr.waiting v hv hd), hrated,
    hr.known.of_sub rfl (fun v hv => hs.perm.mem_iff.1 hv) rfl⟩, rfl⟩

/-- So do many bumps. -/
theorem foldlM_bump_ready {vars : List Var} (h : vars.foldlM bump d = .ok d')
    (hr : d.Ready free) : d'.Ready free ∧ d'.decides = d.decides :=
  foldlM_ok (fun _ d₁ => d₁.Ready free ∧ d₁.decides = d.decides)
    (fun _ _ _ _ h₁ h₂ =>
      let h₃ := bump_ready h₂ h₁.1
      ⟨h₃.1, h₃.2.trans h₁.2⟩)
    ⟨hr, rfl⟩ h

/-- A queue made anew holds the free decision variables, each once. -/
theorem exists_of_rebuild (h : d.rebuild t = .ok d') :
    ∃ vars : List Var,
      d' = { d with queue := VarHeap.ofArray (moreActive d.activities) vars.toArray } ∧
      vars.Nodup ∧ ∀ v, v ∈ vars ↔ t.Free v ∧ d.decides v = some true := by
  simp only [rebuild, bind_eq_ok, pure_eq_ok] at h
  obtain ⟨vars, hvars, rfl⟩ := h
  obtain ⟨g, hg, rfl⟩ := filterMapM_ok hvars
  -- what becomes of one entry
  have hentry : ∀ x ∈ d.choices.entries, ∀ v,
      g x = some v ↔ v = ⟨x.1⟩ ∧ t.Free v ∧ x.2.decision = true := by
    rintro ⟨i, c⟩ hx v
    have hgx := hg _ hx
    dsimp only at hgx
    split at hgx
    next hyes =>
        simp only [bind_eq_ok, pure_eq_ok] at hgx
        obtain ⟨b, hb, hgx⟩ := hgx
        obtain ⟨hlt, rfl⟩ := Trail.isUnset_eq_ok hb
        rw [← hgx]
        constructor
        · intro hv
          split at hv
          next hunset =>
              obtain rfl := Option.some.inj hv
              exact ⟨rfl, ⟨hlt, hunset⟩, hyes⟩
          next => cases hv
        · rintro ⟨rfl, hfree, -⟩
          exact if_pos hfree.2
    next hno =>
        rw [← pure_eq_ok.1 hgx]
        exact ⟨nofun, fun hv => absurd hv.2.2 hno⟩
  refine ⟨_, rfl, ?_, fun v => ?_⟩
  · rw [List.Nodup, List.pairwise_filterMap]
    refine d.choices.pairwise_entries.imp_of_mem fun {x y} hx hy hlt u hu v hv huv => ?_
    rw [((hentry x hx u).1 hu).1, ((hentry y hy v).1 hv).1] at huv
    exact absurd (congrArg Var.index huv) (Nat.ne_of_lt hlt)
  · rw [List.mem_filterMap]
    constructor
    · rintro ⟨x, hx, hv⟩
      obtain ⟨rfl, hfree, hyes⟩ := (hentry x hx v).1 hv
      refine ⟨hfree, ?_⟩
      rw [decides, SparseTable.mem_entries.1 hx, Option.map_some, hyes]
    · rintro ⟨hfree, hd⟩
      obtain ⟨c, hc, hyes⟩ := Option.map_eq_some_iff.1 hd
      have hx := SparseTable.mem_entries.2 hc
      exact ⟨_, hx, (hentry _ hx v).2 ⟨rfl, hfree, hyes⟩⟩

/-- Making the queue anew changes no choice. -/
theorem decides_of_rebuild (h : d.rebuild t = .ok d') : d'.decides = d.decides := by
  obtain ⟨vars, rfl, -⟩ := exists_of_rebuild h
  rfl

/-- A queue made anew holds every free decision variable. -/
theorem rebuild_ready (h : d.rebuild t = .ok d')
    (hrated : ∀ v, (d.decides v).isSome = true → (d.activities.get? v.index).isSome = true)
    (hordered : ∀ l ∈ d.order.toList, (d.decides l.var).isSome = true) :
    d'.Ready t.Free ∧ d'.decides = d.decides := by
  obtain ⟨vars, rfl, -, hmem⟩ := exists_of_rebuild h
  refine ⟨⟨VarHeap.listed_ofArray _ _, fun v hv hd => ?_, hrated, fun v hv => ?_, hordered⟩, rfl⟩
  · rw [VarHeap.mem_ofArray]
    exact (hmem v).2 ⟨hv, hd⟩
  · rw [VarHeap.mem_ofArray] at hv
    exact Option.isSome_of_eq_some ((hmem v).1 hv).2

/-- Discarding variables makes the queue anew from those that are left. -/
theorem truncateVars_ready {n : Nat} (h : d.truncateVars n t = .ok d') (hr : d.Ready free) :
    d'.Ready t.Free ∧ ∀ v, d'.decides v = if v.index < n then d.decides v else none := by
  have hcut : ∀ v : Var, ((d.choices.truncate n).get? v.index).map Choice.decision =
      if v.index < n then d.decides v else none := fun v => by
    rw [SparseTable.get?_truncate]
    split <;> rfl
  have hrated : ∀ v : Var, (((d.choices.truncate n).get? v.index).map Choice.decision).isSome =
      true → ((d.activities.truncate n).get? v.index).isSome = true := fun v hv => by
    rw [hcut] at hv
    rw [SparseTable.get?_truncate]
    split at hv
    next hlt =>
        rw [if_pos hlt]
        exact hr.rated v hv
    next => cases hv
  have hordered : ∀ l ∈ (d.order.filter fun l => l.var.index < n).toList,
      (((d.choices.truncate n).get? l.var.index).map Choice.decision).isSome = true :=
    fun l hl => by
      rw [Array.toList_filter, List.mem_filter, decide_eq_true_iff] at hl
      rw [hcut, if_pos hl.2]
      exact hr.known.ordered l hl.1
  obtain ⟨hr', hd⟩ := rebuild_ready h hrated hordered
  exact ⟨hr', fun v => (congrFun hd v).trans (hcut v)⟩

/-- A variable that became known is not free yet. -/
theorem Ready.introduced {u : Var} {c : Choice} (hr : d.Ready free) (h : d.Introduced u c d') :
    d'.Ready fun v => free v ∧ v ≠ u := by
  have hsub : ∀ v, (d.decides v).isSome = true → (d'.decides v).isSome = true := by
    intro v hv
    rw [decides_eq h.choices]
    split
    · exact Option.isSome_some
    · exact hv
  refine ⟨h.queue ▸ hr.listed, fun v hv hd => ?_, fun v hv => ?_, fun v hv => ?_, fun l hl => ?_⟩
  · rw [decides_eq h.choices, if_neg hv.2] at hd
    exact h.queue ▸ hr.waiting v hv.1 hd
  · obtain ⟨x, hx⟩ := h.activities
    rw [hx, SparseTable.get?_insert]
    split
    · exact Option.isSome_some
    next hne =>
        rw [decides_eq h.choices, if_neg fun he => hne (congrArg Var.index he)] at hv
        exact hr.rated v hv
  · exact hsub v (hr.known.queued v (h.queue ▸ hv))
  · exact hsub l.var (hr.known.ordered l (h.order ▸ hl))

/-- A new variable may be free. -/
theorem addVar_ready {u : Var} {negated decision : Bool}
    (h : d.addVar u negated decision = .ok d') (hr : d.Ready free) :
    (d'.Ready fun v => free v ∨ v = u) ∧
      ∀ v, d'.decides v = if v = u then some decision else d.decides v := by
  obtain ⟨base, hbase, rfl⟩ := exists_of_addVar h
  have hdecides : ∀ v, base.decides v = if v = u then some decision else d.decides v :=
    decides_eq hbase.choices
  have hready := hr.introduced hbase
  cases decision with
  | false =>
      refine ⟨⟨hready.listed, fun v hv hd => ?_, hready.rated, hready.known⟩, hdecides⟩
      by_cases hvu : v = u
      · rw [if_neg Bool.false_ne_true, hdecides, if_pos hvu] at hd
        cases hd
      · exact hready.waiting v ⟨hv.resolve_right hvu, hvu⟩ hd
  | true =>
      refine ⟨(hready.enqueue (by rw [hdecides, if_pos rfl]; rfl)).mono fun v hv => ?_, hdecides⟩
      by_cases hvu : v = u
      · exact Or.inr hvu
      · exact Or.inl ⟨hv.resolve_right hvu, hvu⟩

/-! ## Picking -/

/-- A variable is eligible when it is free and to be decided. -/
theorem eligible_eq_ok {b : Bool} (h : d.eligible t v = .ok b) :
    b = true ↔ t.Free v ∧ d.decides v = some true := by
  simp only [eligible, bind_eq_ok] at h
  obtain ⟨u, hu, h⟩ := h
  obtain ⟨hlt, rfl⟩ := Trail.isUnset_eq_ok hu
  split at h
  next hyes =>
      simp only [bind_eq_ok, SparseTable.fetch_eq_ok, pure_eq_ok] at h
      obtain ⟨c, hc, rfl⟩ := h
      rw [decides, hc, Option.map_some, Option.some.injEq]
      exact ⟨fun hd => ⟨⟨hlt, hyes⟩, hd⟩, And.right⟩
  next hno =>
      obtain rfl := pure_eq_ok.1 h
      exact ⟨by simp, fun hd => absurd hd.1.2 hno⟩

/-- Going through the order of the caller only moves the place in it. -/
theorem exists_of_pickOrdered {o : Option Lit} : ∀ {n : Nat} {d : Decisions},
    pickOrdered t n d = .ok (o, d') →
    (∃ head, d' = { d with orderHead := head }) ∧
      ∀ l, o = some l → t.Free l.var ∧ d.decides l.var = some true := by
  intro n
  induction n with
  | zero =>
      intro d h
      simp only [pickOrdered, pure_eq_ok, Prod.mk.injEq] at h
      obtain ⟨rfl, rfl⟩ := h
      exact ⟨⟨_, rfl⟩, by simp⟩
  | succ n ih =>
      intro d h
      rw [pickOrdered] at h
      split at h
      next =>
          simp only [pure_eq_ok, Prod.mk.injEq] at h
          obtain ⟨rfl, rfl⟩ := h
          exact ⟨⟨_, rfl⟩, by simp⟩
      next m _ =>
          simp only [bind_eq_ok] at h
          obtain ⟨b, hb, h⟩ := h
          split at h
          next hyes =>
              simp only [pure_eq_ok, Prod.mk.injEq] at h
              obtain ⟨rfl, rfl⟩ := h
              refine ⟨⟨_, rfl⟩, fun l hl => ?_⟩
              obtain rfl := Option.some.inj hl
              exact (eligible_eq_ok hb).1 hyes
          next =>
              obtain ⟨⟨head, rfl⟩, hsome⟩ := ih h
              exact ⟨⟨head, rfl⟩, hsome⟩

/-- Taking variables from the queue changes nothing else. -/
theorem exists_of_pickActive {o : Option Var} : ∀ {n : Nat} {d : Decisions},
    pickActive t n d = .ok (o, d') →
    (∃ queue, d' = { d with queue }) ∧ ∀ v, o = some v → t.Free v ∧ d.decides v = some true := by
  intro n
  induction n with
  | zero =>
      intro d h
      simp only [pickActive, pure_eq_ok, Prod.mk.injEq] at h
      obtain ⟨rfl, rfl⟩ := h
      exact ⟨⟨_, rfl⟩, by simp⟩
  | succ n ih =>
      intro d h
      rw [pickActive] at h
      split at h
      next =>
          simp only [pure_eq_ok, Prod.mk.injEq] at h
          obtain ⟨rfl, rfl⟩ := h
          exact ⟨⟨_, rfl⟩, by simp⟩
      next u queue _ =>
          simp only [bind_eq_ok] at h
          obtain ⟨b, hb, h⟩ := h
          split at h
          next hyes =>
              simp only [pure_eq_ok, Prod.mk.injEq] at h
              obtain ⟨rfl, rfl⟩ := h
              refine ⟨⟨_, rfl⟩, fun v hv => ?_⟩
              obtain rfl := Option.some.inj hv
              exact (eligible_eq_ok hb).1 hyes
          next =>
              obtain ⟨⟨queue', rfl⟩, hsome⟩ := ih h
              exact ⟨⟨queue', rfl⟩, hsome⟩

/-- A random variable is only picked with a positive probability. -/
theorem exists_of_pickRandom {o : Option Var} (h : d.pickRandom t = .ok (o, d')) :
    (∃ generator count, d' = { d with generator, randomDecisions := count }) ∧
      ∀ v, o = some v →
        (t.Free v ∧ d.decides v = some true) ∧ d.settings.randomFreq > 0.0 := by
  simp only [pickRandom] at h
  split at h
  next hyes =>
      have hfreq : d.settings.randomFreq > 0.0 := by
        by_contra hno
        simp [Generator.chance, hno] at hyes
      simp only [bind_eq_ok] at h
      obtain ⟨u, -, b, hb, h⟩ := h
      split at h
      next heligible =>
          simp only [pure_eq_ok, Prod.mk.injEq] at h
          obtain ⟨rfl, rfl⟩ := h
          refine ⟨⟨_, _, rfl⟩, fun v hv => ⟨?_, hfreq⟩⟩
          obtain rfl := Option.some.inj hv
          exact (eligible_eq_ok hb).1 heligible
      next =>
          simp only [pure_eq_ok, Prod.mk.injEq] at h
          obtain ⟨rfl, rfl⟩ := h
          exact ⟨⟨_, _, rfl⟩, by simp⟩
  next =>
      simp only [pure_eq_ok, Prod.mk.injEq] at h
      obtain ⟨rfl, rfl⟩ := h
      exact ⟨⟨_, _, rfl⟩, by simp⟩

/-- A variable is drawn at random, or it comes from the queue. -/
theorem pickVar_eq_ok {o : Option Var} : d.pickVar t = .ok (o, d') ↔
    (∃ v, o = some v ∧ d.pickRandom t = .ok (some v, d')) ∨
      ∃ d₁, d.pickRandom t = .ok (none, d₁) ∧ pickActive t d₁.queue.size d₁ = .ok (o, d') := by
  simp only [pickVar, bind_eq_ok]
  constructor
  · rintro ⟨⟨o₁, d₁⟩, hrandom, h⟩
    cases o₁ with
    | some v =>
        simp only [pure_eq_ok, Prod.mk.injEq] at h
        obtain ⟨rfl, rfl⟩ := h
        exact Or.inl ⟨v, rfl, hrandom⟩
    | none => exact Or.inr ⟨d₁, hrandom, h⟩
  · rintro (⟨v, rfl, hrandom⟩ | ⟨d₁, hrandom, h⟩)
    · exact ⟨_, hrandom, rfl⟩
    · exact ⟨_, hrandom, h⟩

/-- The ways to an answer: a literal of the caller's order, nothing, or a variable, on a random side
or on the one that is known of it. -/
inductive Drawn (d : Decisions) (t : Trail) : Option Lit → Decisions → Prop
  | listed {l : Lit} {d' : Decisions}
      (hordered : pickOrdered t (d.order.size - d.orderHead) d = .ok (some l, d')) :
      Drawn d t (some l) d'
  | nothing {d₁ d' : Decisions}
      (hordered : pickOrdered t (d.order.size - d.orderHead) d = .ok (none, d₁))
      (hvar : d₁.pickVar t = .ok (none, d')) : Drawn d t none d'
  | randomSide {d₁ d₂ : Decisions} {v : Var}
      (hordered : pickOrdered t (d.order.size - d.orderHead) d = .ok (none, d₁))
      (hvar : d₁.pickVar t = .ok (some v, d₂)) (hside : d₂.settings.randomSide = true) :
      Drawn d t (some (v.lit (d₂.generator.chance 0.5).1))
        { d₂ with generator := (d₂.generator.chance 0.5).2 }
  | knownSide {d₁ d' : Decisions} {v : Var} {c : Choice}
      (hordered : pickOrdered t (d.order.size - d.orderHead) d = .ok (none, d₁))
      (hvar : d₁.pickVar t = .ok (some v, d')) (hc : d'.choices.get? v.index = some c) :
      Drawn d t (some (v.lit c.negated)) d'

/-- Every pick is made in one of the four ways. -/
theorem drawn_of_pick {o : Option Lit} (h : d.pick t = .ok (o, d')) : d.Drawn t o d' := by
  simp only [pick, bind_eq_ok] at h
  obtain ⟨⟨o₁, d₁⟩, hordered, h⟩ := h
  cases o₁ with
  | some l =>
      simp only [pure_eq_ok, Prod.mk.injEq] at h
      obtain ⟨rfl, rfl⟩ := h
      exact .listed hordered
  | none =>
      simp only [bind_eq_ok] at h
      obtain ⟨⟨o₂, d₂⟩, hvar, h⟩ := h
      cases o₂ with
      | none =>
          simp only [pure_eq_ok, Prod.mk.injEq] at h
          obtain ⟨rfl, rfl⟩ := h
          exact .nothing hordered hvar
      | some v =>
          simp only at h
          split at h
          next hside =>
              simp only [pure_eq_ok, Prod.mk.injEq] at h
              obtain ⟨rfl, rfl⟩ := h
              exact .randomSide hordered hvar hside
          next =>
              simp only [bind_eq_ok, SparseTable.fetch_eq_ok, pure_eq_ok, Prod.mk.injEq] at h
              obtain ⟨c, hc, rfl, rfl⟩ := h
              exact .knownSide hordered hvar hc

/-! ## What picking leaves -/

/-- Neither the place in the order of the caller nor the random numbers matter. -/
theorem Ready.reseed (hr : d.Ready free) (head : Nat) (generator : Generator) (count : Nat) :
    Ready { d with orderHead := head, generator, randomDecisions := count } free :=
  ⟨hr.listed, hr.waiting, hr.rated, hr.known.of_sub rfl (fun _ => id) rfl⟩

/-- A variable is taken from the queue. It need not wait any more if it is picked or has a value. -/
theorem Ready.pop {queue : VarHeap} {b : Bool} (hr : d.Ready t.Free)
    (hpop : d.queue.pop (moreActive d.activities) = (some v, queue))
    (hb : d.eligible t v = .ok b) :
    Ready { d with queue } fun u => t.Free u ∧ (b = true → u ≠ v) := by
  obtain ⟨hlisted, hperm⟩ := VarHeap.pop_eq_some hr.listed hpop
  refine ⟨hlisted, fun u hu hd => ?_, hr.rated, hr.known.of_sub rfl
    (fun u hu => hperm.mem_iff.2 (List.mem_cons_of_mem _ hu)) rfl⟩
  refine (List.mem_cons.1 (hperm.mem_iff.1 (hr.waiting u hu.1 hd))).resolve_left ?_
  rintro rfl
  exact hu.2 ((eligible_eq_ok hb).2 ⟨hu.1, hd⟩) rfl

/-- With an empty queue there is nothing to decide. -/
theorem Ready.of_nil (hr : d.Ready free) (h : d.queue.items.toList = []) :
    ∀ v, free v → d.decides v ≠ some true := by
  intro v hv hd
  have hmem := hr.waiting v hv hd
  rw [h] at hmem
  cases hmem

/-- Going through the caller's order moves a position and nothing else. -/
theorem pickOrdered_ready {n : Nat} {o : Option Lit} (h : pickOrdered t n d = .ok (o, d'))
    (hr : d.Ready free) : d'.Ready free ∧ d'.decides = d.decides := by
  obtain ⟨⟨head, rfl⟩, -⟩ := exists_of_pickOrdered h
  exact ⟨hr.reseed head _ _, rfl⟩

/-- Taking variables from the queue skips only variables that are not eligible. -/
theorem pickActive_ready : ∀ {n : Nat} {d : Decisions} {o : Option Var},
    pickActive t n d = .ok (o, d') → d.Ready t.Free → d.queue.items.toList.length ≤ n →
    d'.decides = d.decides ∧
      (∀ v, o = some v → d'.Ready fun u => t.Free u ∧ u ≠ v) ∧
      (o = none → d'.Ready t.Free ∧ ∀ v, t.Free v → d.decides v ≠ some true) := by
  intro n
  induction n with
  | zero =>
      intro d o h hr hn
      simp only [pickActive, pure_eq_ok, Prod.mk.injEq] at h
      obtain ⟨rfl, rfl⟩ := h
      have hnil := List.eq_nil_of_length_eq_zero (Nat.le_zero.1 hn)
      exact ⟨rfl, by simp, fun _ => ⟨hr, hr.of_nil hnil⟩⟩
  | succ n ih =>
      intro d o h hr hn
      simp only [pickActive] at h
      split at h
      next queue hpop =>
          simp only [pure_eq_ok, Prod.mk.injEq] at h
          obtain ⟨rfl, rfl⟩ := h
          obtain ⟨rfl, hnil⟩ := VarHeap.pop_eq_none hpop
          exact ⟨rfl, by simp, fun _ => ⟨hr, hr.of_nil hnil⟩⟩
      next v queue hpop =>
          have hperm := (VarHeap.pop_eq_some hr.listed hpop).2
          simp only [bind_eq_ok] at h
          obtain ⟨b, hb, h⟩ := h
          have hr₁ := hr.pop hpop hb
          split at h
          next =>
              simp only [pure_eq_ok, Prod.mk.injEq] at h
              obtain ⟨rfl, rfl⟩ := h
              refine ⟨rfl, fun u hu => ?_, by simp⟩
              obtain rfl := Option.some.inj hu
              exact hr₁.mono fun u hu => ⟨hu.1, fun _ => hu.2⟩
          next hno =>
              have hlen : queue.items.toList.length ≤ n := by
                have := hperm.length_eq
                rw [List.length_cons] at this
                omega
              -- the variable that was popped is not open, so the queue still holds all that are
              have hrest := ih h (hr₁.mono fun u hu => ⟨hu, fun hb => absurd hb hno⟩) hlen
              exact hrest

/-- A random pick reads the queue and takes nothing out. -/
theorem pickRandom_ready {o : Option Var} (h : d.pickRandom t = .ok (o, d')) (hr : d.Ready free) :
    d'.Ready free ∧ d'.decides = d.decides := by
  obtain ⟨⟨generator, count, rfl⟩, -⟩ := exists_of_pickRandom h
  exact ⟨hr.reseed _ generator count, rfl⟩

/-- After a pick every other open variable waits in the queue, and after a vain one no variable is
open. -/
theorem pickVar_ready {o : Option Var} (h : d.pickVar t = .ok (o, d')) (hr : d.Ready t.Free) :
    d'.decides = d.decides ∧
      (∀ v, o = some v → d'.Ready fun u => t.Free u ∧ u ≠ v) ∧
      (o = none → d'.Ready t.Free ∧ ∀ v, t.Free v → d.decides v ≠ some true) := by
  rcases pickVar_eq_ok.1 h with ⟨v, rfl, hrandom⟩ | ⟨d₁, hrandom, hactive⟩
  · obtain ⟨hr', hd⟩ := pickRandom_ready hrandom hr
    exact ⟨hd, fun v _ => hr'.mono fun u hu => hu.1, by simp⟩
  · obtain ⟨hr₁, hd₁⟩ := pickRandom_ready hrandom hr
    obtain ⟨hd', hsome, hnone⟩ := pickActive_ready hactive hr₁ (by simp [VarHeap.size])
    exact ⟨hd'.trans hd₁, hsome, fun ho => ⟨(hnone ho).1, fun v hv => hd₁ ▸ (hnone ho).2 v hv⟩⟩

/-- After a pick every free decision variable but the picked one waits, and a pick without an
answer means that there is none. -/
theorem pick_ready {o : Option Lit} (h : d.pick t = .ok (o, d')) (hr : d.Ready t.Free) :
    d'.decides = d.decides ∧
      (∀ l, o = some l → d'.Ready fun u => t.Free u ∧ u ≠ l.var) ∧
      (o = none → d'.Ready t.Free ∧ ∀ v, t.Free v → d.decides v ≠ some true) := by
  cases drawn_of_pick h with
  | listed hordered =>
      obtain ⟨hr', hd⟩ := pickOrdered_ready hordered hr
      exact ⟨hd, fun l _ => hr'.mono fun u hu => hu.1, by simp⟩
  | nothing hordered hvar =>
      obtain ⟨hr₁, hd₁⟩ := pickOrdered_ready hordered hr
      obtain ⟨hd', -, hnone⟩ := pickVar_ready hvar hr₁
      exact ⟨hd'.trans hd₁, by simp, fun _ =>
        ⟨(hnone rfl).1, fun v hv => hd₁ ▸ (hnone rfl).2 v hv⟩⟩
  -- drawing the side changes the generator only
  | randomSide hordered hvar =>
      obtain ⟨hr₁, hd₁⟩ := pickOrdered_ready hordered hr
      obtain ⟨hd₂, hsome, -⟩ := pickVar_ready hvar hr₁
      refine ⟨hd₂.trans hd₁, fun l hl => ?_, by simp⟩
      obtain rfl := Option.some.inj hl
      exact (hsome _ rfl).reseed _ _ _
  | knownSide hordered hvar =>
      obtain ⟨hr₁, hd₁⟩ := pickOrdered_ready hordered hr
      obtain ⟨hd', hsome, -⟩ := pickVar_ready hvar hr₁
      refine ⟨hd'.trans hd₁, fun l hl => ?_, by simp⟩
      obtain rfl := Option.some.inj hl
      exact hsome _ rfl

end Decisions

end CardSat
