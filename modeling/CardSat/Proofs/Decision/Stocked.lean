import CardSat.Proofs.Decision
import CardSat.Proofs.Float.Scaling
import CardSat.Proofs.Table.Heap.Order

set_option autoImplicit false

/-! # What the queue and the order of the caller hold

`Decisions.Stocked`: the choices and the activities are those of the known variables, every free
decision variable waits in the queue, which is a heap, and the literals of the caller's order that
have been passed are known and not to be decided. Unlike `Decisions.Ready` this holds whatever the
caller asks to be decided first, and it says how the queue is ordered.

The order of the queue means something only while no activity is a NaN. An activity that is one
stays one, so it is enough to look at the present activities (`Decisions.Numeric`).
-/

namespace CardSat

namespace Decisions

variable {d d' : Decisions} {n : Nat} {free free' : Var → Prop} {t : Trail} {u v : Var}

/-! ## Activities

Activities are floats. The comparison of two of them is that of their ranks as long as neither is a
NaN, so the order of the queue is a weak order on the variables. -/

/-- Every activity is a number. -/
def Numeric (activities : SparseTable Float) : Prop :=
  ∀ i a, activities.get? i = some a → a.isNaN = false

/-- Whether any activity is a NaN can be tested. -/
theorem numeric_iff {activities : SparseTable Float} :
    Numeric activities ↔ activities.entries.all (fun x => !x.2.isNaN) = true := by
  simp only [Numeric, List.all_eq_true, Prod.forall, SparseTable.mem_entries, Bool.not_eq_true']

instance (activities : SparseTable Float) : Decidable (Numeric activities) :=
  decidable_of_iff _ numeric_iff.symm

/-- The activity of a variable, zero if it is unknown. -/
def activityOf (activities : SparseTable Float) (v : Var) : Float :=
  (activities.get? v.index).getD 0.0

/-- The activity that the table has. -/
theorem activityOf_eq {activities : SparseTable Float} {a : Float}
    (h : activities.get? v.index = some a) : activityOf activities v = a := by
  rw [activityOf, h, Option.getD_some]

/-- No variable has a NaN as its activity. -/
theorem Numeric.isNaN {activities : SparseTable Float} (h : Numeric activities) (v : Var) :
    (activityOf activities v).isNaN = false := by
  rw [activityOf]
  cases ha : activities.get? v.index with
  | none => decide
  | some a => exact h _ a ha

/-- The comparison is that of the ranks. -/
theorem moreActive_eq_true {activities : SparseTable Float} (h : Numeric activities) :
    moreActive activities u v = true ↔
      floatRank (activityOf activities v) < floatRank (activityOf activities u) := by
  rw [moreActive, decide_eq_true_iff, gt_iff_lt, float_lt_iff]
  exact ⟨fun hlt => hlt.2.2, fun hlt => ⟨h.isNaN v, h.isNaN u, hlt⟩⟩

/-- It is a weak order. -/
theorem strictWeak_moreActive {activities : SparseTable Float} (h : Numeric activities) :
    VarHeap.StrictWeak (moreActive activities) :=
  VarHeap.strictWeak_of_rank (fun v => floatRank (activityOf activities v))
    fun _ _ => moreActive_eq_true h

/-! ## Raised activities

A bump raises the activity of one variable. Where it becomes too great, all activities are scaled
down, and scaling may make two different activities equal. It never turns an order around
(`mul_scale_le`), so the queue stays a heap and only the raised variable has to move. -/

/-- The factor by which activities are scaled is a normal positive float. -/
theorem unpack_varActivityScale : varActivityScale.toModel.unpack =
    .finite .positive 7880401239278896 (-385) (by decide) := by
  have hbits : varActivityScale.toModel.toBits = 3110860544497550640 := by decide +kernel
  rw [Float.Model.unpack, hbits]
  rfl

/-- Scaling keeps the order, though not strictly. -/
theorem mul_scale_le {x y : Float} (h : x ≤ y) : x * varActivityScale ≤ y * varActivityScale :=
  float_mul_le_mul unpack_varActivityScale (by decide) h

/-- What becomes a number was one. -/
theorem isNaN_of_mul {x y : Float} (h : (x * y).isNaN = false) : x.isNaN = false := by
  by_contra hx
  rw [isNaN_mul (Bool.not_eq_false _ ▸ hx)] at h
  cases h

/-- A sum that is a number has a first summand that is one. -/
theorem isNaN_of_add {x y : Float} (h : (x + y).isNaN = false) : x.isNaN = false := by
  by_contra hx
  rw [isNaN_add (Bool.not_eq_false _ ▸ hx)] at h
  cases h

/-- What the other activities are after that of a variable was raised. -/
theorem get?_raise {x : Float} (hv : v ≠ u) : (d.raise u x).get? v.index =
    (d.activities.get? v.index).map
      fun a => if x > varActivityLimit then a * varActivityScale else a := by
  have hne : v.index ≠ u.index := mt Var.index_inj.1 hv
  rw [raise]
  split
  · rw [SparseTable.get?_insert, if_neg hne, SparseTable.get?_map]
  · rw [SparseTable.get?_insert, if_neg hne, Option.map_id']

/-- The activity that was raised. -/
theorem get?_raise_self {x : Float} : (d.raise u x).get? u.index =
    some (if x > varActivityLimit then x * varActivityScale else x) := by
  rw [raise]
  split
  · rw [SparseTable.get?_insert, if_pos rfl]
  · rw [SparseTable.get?_insert, if_pos rfl]

/-- The table keeps its entries. -/
theorem spans_raise {x : Float} (h : d.activities.Spans n) (hu : u.index < n) :
    (d.raise u x).Spans n := by
  rw [raise]
  split
  · exact (h.map _).insert hu _
  · exact h.insert hu _

/-- Activities that are numbers were numbers before. -/
theorem numeric_of_raise {a x : Float} (ha : d.activities.get? u.index = some a)
    (h : Numeric (d.raise u (a + x))) : Numeric d.activities := by
  intro i b hb
  by_cases hi : (⟨i⟩ : Var) = u
  · subst hi
    obtain rfl := Option.some.inj (ha.symm.trans hb)
    have hraised := h _ _ get?_raise_self
    split at hraised
    · exact isNaN_of_add (isNaN_of_mul hraised)
    · exact isNaN_of_add hraised
  · have hkept := h i _ ((get?_raise hi).trans (congrArg _ hb))
    split at hkept
    · exact isNaN_of_mul hkept
    · exact hkept

/-- The order of two other variables stays, or becomes a tie. -/
theorem moreActive_of_raise {x : Float} {a b : Var} (hd : Numeric d.activities)
    (hd' : Numeric (d.raise u x)) (ha : a ≠ u) (hb : b ≠ u)
    (hka : (d.activities.get? a.index).isSome = true)
    (hkb : (d.activities.get? b.index).isSome = true)
    (h : moreActive (d.raise u x) a b = true) : moreActive d.activities a b = true := by
  obtain ⟨p, hp⟩ := Option.isSome_iff_exists.1 hka
  obtain ⟨q, hq⟩ := Option.isSome_iff_exists.1 hkb
  by_contra hno
  rw [moreActive_eq_true hd, activityOf_eq hp, activityOf_eq hq, not_lt] at hno
  have hle : p ≤ q := float_le_iff.2 ⟨hd _ _ hp, hd _ _ hq, hno⟩
  rw [moreActive_eq_true hd', activityOf_eq ((get?_raise ha).trans (congrArg _ hp)),
    activityOf_eq ((get?_raise hb).trans (congrArg _ hq))] at h
  split at h
  · exact absurd (float_le_iff.1 (mul_scale_le hle)).2.2 (not_le.2 h)
  · exact absurd hno (not_le.2 h)

/-! ## The invariant -/

/-- The queue, the tables and the order of the caller fit `n` variables, of which some are
free. -/
structure Stocked (d : Decisions) (n : Nat) (free : Var → Prop) : Prop where
  placed : d.queue.Placed
  ordered : Numeric d.activities → d.queue.Ordered (moreActive d.activities)
  chosen : d.choices.Spans n
  rated : d.activities.Spans n
  queued : ∀ v ∈ d.queue.items.toList, v.index < n
  waiting : ∀ v, free v → d.decides v = some true → v ∈ d.queue.items.toList
  passed : ∀ l ∈ d.order.toList.take d.orderHead,
    l.var.index < n ∧ (free l.var → d.decides l.var ≠ some true)

/-- The variables that are known are those below the number. -/
theorem Stocked.isSome_decides (h : d.Stocked n free) :
    (d.decides v).isSome = true ↔ v.index < n := by
  rw [decides, Option.isSome_map]
  exact h.chosen _

/-- When the caller asks for known variables only, decisions can be picked. -/
theorem Stocked.ready (h : d.Stocked n free) (ho : ∀ l ∈ d.order.toList, l.var.index < n) :
    d.Ready free where
  listed := h.placed.listed
  waiting := h.waiting
  rated _ hv := (h.rated _).2 (h.isSome_decides.1 hv)
  known := ⟨fun v hv => h.isSome_decides.2 (h.queued v hv), fun l hl =>
    h.isSome_decides.2 (ho l hl)⟩

/-- Fewer variables may be free. -/
theorem Stocked.mono (h : d.Stocked n free) (hsub : ∀ v, free' v → free v) : d.Stocked n free' :=
  { h with
    waiting := fun v hv => h.waiting v (hsub v hv)
    passed := fun l hl => ⟨(h.passed l hl).1, fun hv => (h.passed l hl).2 (hsub _ hv)⟩ }

/-- Nothing is stocked at the start. -/
theorem stocked_empty {s : DecisionSettings} (h : empty s = .ok d) :
    d.Stocked 0 fun _ => False := by
  simp only [empty, bind_eq_ok, pure_eq_ok] at h
  obtain ⟨g, -, rfl⟩ := h
  exact ⟨VarHeap.placed_empty, fun _ => VarHeap.ordered_empty, fun i => by simp,
    fun i => by simp, by simp [VarHeap.empty], fun v hv => hv.elim, by simp⟩

/-- A variable that has not been passed is put into the queue and may be free. -/
theorem Stocked.enqueue (h : d.Stocked n free) (hu : u.index < n)
    (hpassed : ∀ l ∈ d.order.toList.take d.orderHead, l.var ≠ u) :
    (d.enqueue u).Stocked n fun v => free v ∨ v = u where
  placed := VarHeap.placed_insert h.placed
  ordered hd := VarHeap.ordered_insert (strictWeak_moreActive hd) (h.ordered hd)
  chosen := h.chosen
  rated := h.rated
  queued v hv := by
    rcases (VarHeap.mem_insert h.placed.listed v).1 hv with rfl | hv
    · exact hu
    · exact h.queued v hv
  waiting v hv hd := by
    refine (VarHeap.mem_insert h.placed.listed v).2 ?_
    rcases hv with hv | rfl
    · exact Or.inr (h.waiting v hv hd)
    · exact Or.inl rfl
  passed l hl := ⟨(h.passed l hl).1, fun hv => (h.passed l hl).2 (hv.resolve_right (hpassed l hl))⟩

/-! ## Variables and values -/

/-- Activities that are numbers after a variable became known were numbers before. -/
theorem numeric_of_introduced {c : Choice} (hn : u.index = n) (hs : d.Stocked n free)
    (h : d.Introduced u c d') (hd : Numeric d'.activities) : Numeric d.activities := by
  intro i a ha
  obtain ⟨x, hx⟩ := h.activities
  refine hd i a ?_
  rw [hx, SparseTable.get?_insert, if_neg (by have := hs.rated.lt ha; omega)]
  exact ha

/-- A variable that became known is not free yet. -/
theorem Stocked.introduced {c : Choice} (hs : d.Stocked n free) (hn : u.index = n)
    (h : d.Introduced u c d') : d'.Stocked (n + 1) fun v => free v ∧ v ≠ u := by
  have hbefore : ∀ {v}, v.index < n → v ≠ u := by
    rintro v hv rfl
    omega
  have hactivity : ∀ a ∈ d.queue.items.toList,
      activityOf d'.activities a = activityOf d.activities a := by
    intro a ha
    obtain ⟨x, hx⟩ := h.activities
    rw [hx, activityOf, SparseTable.get?_insert,
      if_neg (mt Var.index_inj.1 (hbefore (hs.queued a ha))), activityOf]
  -- the queue is that of before, and the new variable is not in it yet
  refine ⟨h.queue ▸ hs.placed, fun hd => ?_, fun i => ?_, ?_, fun v hv => ?_, fun v hv hd => ?_,
    fun l hl => ?_⟩
  · have hd₁ := numeric_of_introduced hn hs h hd
    rw [h.queue]
    refine (hs.ordered hd₁).relax fun a ha b hb hab => ?_
    rw [moreActive_eq_true hd, hactivity a ha, hactivity b hb] at hab
    exact (moreActive_eq_true hd₁).2 hab
  · rw [h.choices]
    split
    next he => exact iff_of_true Option.isSome_some (by omega)
    next hne =>
        rw [hs.chosen i]
        omega
  · obtain ⟨x, hx⟩ := h.activities
    rw [hx, hn]
    exact hs.rated.insert_succ x
  · exact Nat.lt_succ_of_lt (hs.queued v (h.queue ▸ hv))
  · rw [decides_eq h.choices, if_neg hv.2] at hd
    exact h.queue ▸ hs.waiting v hv.1 hd
  · rw [h.order, h.orderHead] at hl
    obtain ⟨hlt, hpassed⟩ := hs.passed l hl
    rw [decides_eq h.choices, if_neg (hbefore hlt)]
    exact ⟨Nat.lt_succ_of_lt hlt, fun hv => hpassed hv.1⟩

/-- A new variable is taken in, and waits if it is to be decided. -/
theorem stocked_of_addVar {negated decision : Bool} (hn : u.index = n)
    (h : d.addVar u negated decision = .ok d') (hs : d.Stocked n free) :
    d'.Stocked (n + 1) fun v => free v ∨ v = u := by
  obtain ⟨base, hbase, rfl⟩ := exists_of_addVar h
  have hstocked := hs.introduced hn hbase
  have hpassed : ∀ l ∈ base.order.toList.take base.orderHead, l.var ≠ u := by
    rintro l hl rfl
    rw [hbase.order, hbase.orderHead] at hl
    exact absurd hn (hs.passed l hl).1.ne
  cases decision with
  | false =>
      refine { hstocked with
        waiting := fun v hv hd => ?_
        passed := fun l hl => ?_ }
      · by_cases hvu : v = u
        · rw [if_neg Bool.false_ne_true, decides_eq hbase.choices, if_pos hvu] at hd
          cases hd
        · exact hstocked.waiting v ⟨hv.resolve_right hvu, hvu⟩ hd
      · have hne := hpassed l hl
        obtain ⟨hlt, hpassed⟩ := hstocked.passed l hl
        exact ⟨hlt, fun hv => hpassed ⟨hv.resolve_right hne, hne⟩⟩
  | true =>
      refine (hstocked.enqueue (by omega) hpassed).mono fun v hv => ?_
      by_cases hvu : v = u
      · exact Or.inr hvu
      · exact Or.inl ⟨hv.resolve_right hvu, hvu⟩

/-- A variable whose value was taken back is free again. -/
theorem stocked_of_takeBack {l : Lit} {top : Bool} (h : d.takeBack l top = .ok d')
    (hs : d.Stocked n free) : d'.Stocked n fun v => free v ∨ v = l.var := by
  obtain ⟨c, hc, rfl⟩ := takeBack_eq_ok.1 h
  have hlt := hs.chosen.lt hc
  have hsame := decides_note hc (d.settings.phaseSaving.remembers top)
  generalize c.after (d.settings.phaseSaving.remembers top) l = c' at hsame ⊢
  have hs' : (d.note l c').Stocked n free :=
    ⟨hs.placed, hs.ordered, hs.chosen.insert hlt _, hs.rated, hs.queued,
      fun v hv hd => hs.waiting v hv (hsame ▸ hd), by simp [note]⟩
  split
  next => exact hs'.enqueue hlt (by simp [note])
  next hno =>
      refine { hs' with
        waiting := fun v hv hd => ?_
        passed := by simp [note] }
      rcases hv with hv | rfl
      · exact hs'.waiting v hv hd
      · -- the variable is not a decision variable
        rw [hsame, decides, hc, Option.map_some] at hd
        exact absurd (Option.some.inj hd) hno

/-- Taking back a list of values. -/
theorem stocked_of_takeBacks {α : Type} {g : α → Lit} {top : α → Bool} {as : List α}
    (h : as.foldlM (fun (d : Decisions) a => d.takeBack (g a) (top a)) d = .ok d')
    (hs : d.Stocked n free) : d'.Stocked n fun v => free v ∨ v ∈ as.map fun a => (g a).var := by
  induction as generalizing d free with
  | nil =>
      rw [List.foldlM_nil, pure_eq_ok] at h
      subst h
      exact hs.mono fun v hv => hv.resolve_right (by simp)
  | cons a as ih =>
      rw [List.foldlM_cons, bind_eq_ok] at h
      obtain ⟨d₁, h₁, h⟩ := h
      refine (ih h (stocked_of_takeBack h₁ hs)).mono fun v hv => ?_
      rw [List.map_cons, List.mem_cons] at hv
      tauto

/-- A bump keeps the queue ordered by the activities it has raised. -/
theorem stocked_of_bump (h : d.bump u = .ok d') (hs : d.Stocked n free) : d'.Stocked n free := by
  obtain ⟨a, increment, ha, rfl⟩ := exists_of_bump h
  have hsift := VarHeap.sifted_update (moreActive (d.raise u (a + d.increment))) d.queue u
  have hordered : Numeric (d.raise u (a + d.increment)) →
      (d.queue.update (moreActive (d.raise u (a + d.increment))) u).2.Ordered
        (moreActive (d.raise u (a + d.increment))) := by
    intro hd'
    have hd := numeric_of_raise ha hd'
    have hknown : ∀ v ∈ d.queue.items.toList, (d.activities.get? v.index).isSome = true :=
      fun v hv => (hs.rated _).2 (hs.queued v hv)
    exact VarHeap.ordered_update (strictWeak_moreActive hd) (strictWeak_moreActive hd') hs.placed
      (hs.ordered hd) fun p hp q hq hpu hqu =>
        moreActive_of_raise hd hd' hpu hqu (hknown p hp) (hknown q hq)
  have hspans : (d.raise u (a + d.increment)).Spans n := spans_raise hs.rated (hs.rated.lt ha)
  generalize d.raise u (a + d.increment) = activities at *
  exact ⟨VarHeap.placed_update hs.placed, hordered, hs.chosen, hspans,
    fun v hv => hs.queued v (hsift.perm.mem_iff.1 hv),
    fun v hv hd => hsift.perm.mem_iff.2 (hs.waiting v hv hd), hs.passed⟩

/-- So do many bumps. -/
theorem stocked_of_bumps {vars : List Var} (h : vars.foldlM bump d = .ok d')
    (hs : d.Stocked n free) : d'.Stocked n free :=
  foldlM_ok (fun _ d => d.Stocked n free) (fun _ _ _ _ hs h => stocked_of_bump h hs) hs h

/-- Decaying is done by raising the increment, and moves nothing. -/
theorem stocked_of_decay (hs : d.Stocked n free) : d.decay.Stocked n free :=
  ⟨hs.placed, hs.ordered, hs.chosen, hs.rated, hs.queued, hs.waiting, hs.passed⟩

/-- A new order of the caller is gone through from its start. -/
theorem stocked_of_setOrder (hs : d.Stocked n free) (order : List Lit) :
    (d.setOrder order).Stocked n free :=
  ⟨hs.placed, hs.ordered, hs.chosen, hs.rated, hs.queued, hs.waiting, by simp [setOrder]⟩

/-! ## The queue made anew -/

/-- A queue made anew holds every open variable, whatever it held before. -/
theorem stocked_of_rebuild (h : d.rebuild t = .ok d') (hchosen : d.choices.Spans n)
    (hrated : d.activities.Spans n) (hpassed : ∀ l ∈ d.order.toList.take d.orderHead,
      l.var.index < n ∧ (t.Free l.var → d.decides l.var ≠ some true)) : d'.Stocked n t.Free := by
  obtain ⟨vars, rfl, hnodup, hmem⟩ := exists_of_rebuild h
  have hin : ∀ {v}, v ∈ (VarHeap.ofArray (moreActive d.activities) vars.toArray).items.toList ↔
      t.Free v ∧ d.decides v = some true := by
    intro v
    rw [VarHeap.mem_ofArray]
    exact hmem v
  refine ⟨VarHeap.placed_ofArray hnodup,
    fun hd => VarHeap.ordered_ofArray (strictWeak_moreActive hd) _, hchosen, hrated,
    fun v hv => ?_, fun v hv hd => hin.2 ⟨hv, hd⟩, hpassed⟩
  obtain ⟨c, hc, -⟩ := Option.map_eq_some_iff.1 (hin.1 hv).2
  exact hchosen.lt hc

/-- What is left of the variables is stocked again. -/
theorem stocked_of_truncateVars {k : Nat} (h : d.truncateVars k t = .ok d')
    (hs : d.Stocked n free) : d'.Stocked (min k n) t.Free :=
  stocked_of_rebuild h (hs.chosen.truncate k) (hs.rated.truncate k) (by simp)

end Decisions

end CardSat
