import CardSat.Proofs.Decision.Picking
import CardSat.Proofs.Decision.Stocked

set_option autoImplicit false

/-! # Which literal is picked

`Decisions.Picks` says what a pick answers and what it leaves: the first literal of the caller's
order that is over an open variable, if there is one; otherwise an open variable that no other one
exceeds in activity, on the side it remembers. The three stages of a pick (`pickOrdered`,
`pickRandom`, `pickActive`) are followed one by one.

## How the proof goes

Each stage is a loop over a list that gets shorter, the caller's order or the queue, and what it has
passed is closed: no literal before the position in the order is over an open variable
(`Stocked.passed`), and no open variable is outside the queue (`Stocked.waiting`). So when a stage
comes to an end without an answer there is none (`Stocked.orderDone`, `Stocked.not_open_of_nil`),
and when it answers, nothing that it has passed could have come first. That no variable exceeds the
one that is popped is the order of the heap, which is a weak order as long as no activity is a NaN.
-/

namespace CardSat

namespace Decisions

variable {d d' : Decisions} {t : Trail} {u v : Var}

/-- An unassigned decision variable. -/
def Open (d : Decisions) (t : Trail) (v : Var) : Prop := t.Free v ∧ d.decides v = some true

instance : Decidable (d.Open t v) := inferInstanceAs (Decidable ((_ ∧ _) ∧ _))

/-- The first literal of the caller's order that is over an open variable. -/
def FirstOpen (d : Decisions) (t : Trail) (l : Lit) : Prop :=
  d.Open t l.var ∧ ∃ earlier later, d.order.toList = earlier ++ l :: later ∧
    ∀ m ∈ earlier, ¬d.Open t m.var

/-- There is at most one first open literal. -/
theorem FirstOpen.unique {l m : Lit} (hl : d.FirstOpen t l) (hm : d.FirstOpen t m) : l = m := by
  obtain ⟨hol, a, b, hab, hfirst⟩ := hl
  obtain ⟨hom, a', b', hab', hfirst'⟩ := hm
  rcases List.append_eq_append_iff.1 (hab.symm.trans hab') with ⟨c, rfl, hc⟩ | ⟨c, rfl, hc⟩
  · cases c with
    | nil => exact (List.cons.inj hc).1
    | cons x c =>
        obtain rfl := (List.cons.inj hc).1
        exact absurd hol (hfirst' l (by simp))
  · cases c with
    | nil => exact (List.cons.inj hc).1.symm
    | cons x c =>
        obtain rfl := (List.cons.inj hc).1
        exact absurd hom (hfirst m (by simp))

/-- If some literal of the order is over an open variable, there is a first one. -/
theorem exists_firstOpen (h : ∃ l ∈ d.order.toList, d.Open t l.var) : ∃ l, d.FirstOpen t l := by
  classical
  obtain ⟨m, hm, hopen⟩ := h
  have hsome : (d.order.toList.find? fun l => decide (d.Open t l.var)).isSome = true :=
    List.find?_isSome.2 ⟨m, hm, decide_eq_true hopen⟩
  obtain ⟨l, hl⟩ := Option.isSome_iff_exists.1 hsome
  obtain ⟨hopen, earlier, later, hsplit, hfirst⟩ := List.find?_eq_some_iff_append.1 hl
  exact ⟨l, of_decide_eq_true hopen, earlier, later, hsplit, fun a ha => by simpa using hfirst a ha⟩

/-- No literal of the caller's order is to be decided. -/
def OrderDone (d : Decisions) (t : Trail) : Prop := ∀ l ∈ d.order.toList, ¬d.Open t l.var

instance : Decidable (d.OrderDone t) := List.decidableBAll _ _

/-- An order that is done has no first open literal. -/
theorem OrderDone.not_firstOpen (h : d.OrderDone t) (l : Lit) : ¬d.FirstOpen t l := by
  rintro ⟨hopen, earlier, later, hsplit, -⟩
  exact h l (by simp [hsplit]) hopen

/-! ## The caller's order -/

/-- A variable that was looked at is known. -/
theorem known_of_eligible {b : Bool} (h : d.eligible t v = .ok b) : v.index < t.varCount := by
  simp only [eligible, bind_eq_ok] at h
  obtain ⟨b, hb, -⟩ := h
  exact (Trail.isUnset_eq_ok hb).1

/-- When all literals have been passed, none of them is to be decided. -/
theorem Stocked.orderDone (hs : d.Stocked t.varCount t.Free)
    (hpassed : d.order.size ≤ d.orderHead) : d.OrderDone t := by
  intro l hl hopen
  have hall : d.order.toList.take d.orderHead = d.order.toList :=
    List.take_of_length_le (by rwa [Array.length_toList])
  exact (hs.passed l (hall.symm ▸ hl)).2 hopen.1 hopen.2

/-- After a variable that may not be decided, the others wait as before. -/
theorem Stocked.of_refused {n : Nat} {free other : Var → Prop}
    (hs : d.Stocked n fun v => free v ∧ (false = true → other v)) : d.Stocked n free :=
  hs.mono fun _ hv => ⟨hv, fun hb => absurd hb Bool.false_ne_true⟩

/-- The literal that is next in the order. -/
theorem order_eq {l : Lit} (hl : d.order.toList[d.orderHead]? = some l) : d.order.toList =
    d.order.toList.take d.orderHead ++ l :: d.order.toList.drop (d.orderHead + 1) := by
  obtain ⟨hlt, rfl⟩ := List.getElem?_eq_some_iff.1 hl
  rw [← List.drop_eq_getElem_cons hlt, List.take_append_drop]

/-- The next literal counts as passed, and is not to be decided from now on. -/
theorem Stocked.pass {l : Lit} {b : Bool} (hs : d.Stocked t.varCount t.Free)
    (hl : d.order.toList[d.orderHead]? = some l) (hb : d.eligible t l.var = .ok b) :
    Stocked { d with orderHead := d.orderHead + 1 } t.varCount
      fun v => t.Free v ∧ (b = true → v ≠ l.var) := by
  have hsplit : d.order.toList.take (d.orderHead + 1) =
      d.order.toList.take d.orderHead ++ [l] := by
    rw [List.take_add_one, hl, Option.toList_some]
  refine { hs.mono fun v hv => hv.1 with passed := fun m hm => ?_ }
  dsimp only at hm
  rw [hsplit, List.mem_append, List.mem_singleton] at hm
  rcases hm with hm | rfl
  · exact ⟨(hs.passed m hm).1, fun hv => (hs.passed m hm).2 hv.1⟩
  · exact ⟨known_of_eligible hb, fun hv hd =>
      absurd rfl (hv.2 ((eligible_eq_ok hb).2 ⟨hv.1, hd⟩))⟩

/-- The first stage answers with the first open literal of the order, and with nothing when there is
none. -/
theorem pickOrdered_spec : ∀ {n : Nat} {d : Decisions} {o : Option Lit},
    pickOrdered t n d = .ok (o, d') → d.Stocked t.varCount t.Free →
    d.order.size - d.orderHead ≤ n →
    (o = none → d'.Stocked t.varCount t.Free ∧ d.OrderDone t) ∧
      ∀ l, o = some l → d.FirstOpen t l ∧ d'.Stocked t.varCount fun v => t.Free v ∧ v ≠ l.var := by
  intro n
  induction n with
  | zero =>
      intro d o h hs hn
      simp only [pickOrdered, pure_eq_ok, Prod.mk.injEq] at h
      obtain ⟨rfl, rfl⟩ := h
      exact ⟨fun _ => ⟨hs, hs.orderDone (by omega)⟩, by simp⟩
  | succ n ih =>
      intro d o h hs hn
      rw [pickOrdered] at h
      split at h
      next hend =>
          simp only [pure_eq_ok, Prod.mk.injEq] at h
          obtain ⟨rfl, rfl⟩ := h
          exact ⟨fun _ => ⟨hs, hs.orderDone (Array.getElem?_eq_none_iff.1 hend)⟩, by simp⟩
      next l hl =>
          simp only [bind_eq_ok] at h
          obtain ⟨b, hb, h⟩ := h
          have hopen : b = true ↔ d.Open t l.var := eligible_eq_ok hb
          rw [← Array.getElem?_toList] at hl
          have hs₁ := hs.pass hl hb
          cases b with
          -- the literals that were passed before it are not open, so it is the first
          | true =>
              simp only [if_true, pure_eq_ok, Prod.mk.injEq] at h
              obtain ⟨rfl, rfl⟩ := h
              refine ⟨by simp, fun m hm => ?_⟩
              obtain rfl := Option.some.inj hm
              exact ⟨⟨hopen.1 rfl, _, _, order_eq hl, fun m hm hm' =>
                (hs.passed m hm).2 hm'.1 hm'.2⟩, hs₁.mono fun v hv => ⟨hv.1, fun _ => hv.2⟩⟩
          | false =>
              have hrest := ih h hs₁.of_refused (by dsimp only; omega)
              exact hrest

/-! ## The queue -/

/-- Every open variable is as active as no other one. -/
def Foremost (d : Decisions) (t : Trail) (v : Var) : Prop :=
  Numeric d.activities → ∀ u, d.Open t u → moreActive d.activities u v = false

/-- With an empty queue no variable is open. -/
theorem Stocked.not_open_of_nil (hs : d.Stocked t.varCount t.Free)
    (h : d.queue.items.toList = []) : ∀ v, ¬d.Open t v := by
  rintro v ⟨hv, hd⟩
  have hmem := hs.waiting v hv hd
  rw [h] at hmem
  cases hmem

/-- A variable is taken from the queue. It need not wait any more if it is picked or has a value. -/
theorem Stocked.pop {queue : VarHeap} {b : Bool} (hs : d.Stocked t.varCount t.Free)
    (hpop : d.queue.pop (moreActive d.activities) = (some v, queue))
    (hb : d.eligible t v = .ok b) :
    Stocked { d with queue } t.varCount fun u => t.Free u ∧ (b = true → u ≠ v) where
  placed := by
    have hplaced : (d.queue.pop (moreActive d.activities)).2.Placed :=
      VarHeap.placed_pop hs.placed
    rwa [hpop] at hplaced
  ordered hd := by
    have hordered := VarHeap.ordered_pop (strictWeak_moreActive hd) (hs.ordered hd)
    rwa [hpop] at hordered
  chosen := hs.chosen
  rated := hs.rated
  queued u hu := hs.queued u
    ((VarHeap.pop_eq_some hs.placed.listed hpop).2.mem_iff.2 (List.mem_cons_of_mem _ hu))
  waiting u hu hd := by
    have hmem := (VarHeap.pop_eq_some hs.placed.listed hpop).2.mem_iff.1 (hs.waiting u hu.1 hd)
    -- an open variable that is popped is the answer, and so it need not wait any longer
    refine (List.mem_cons.1 hmem).resolve_left ?_
    rintro rfl
    exact hu.2 ((eligible_eq_ok hb).2 ⟨hu.1, hd⟩) rfl
  passed l hl := ⟨(hs.passed l hl).1, fun hv => (hs.passed l hl).2 hv.1⟩

/-- No open variable is more active than the one at the root of the queue. -/
theorem Stocked.foremost {queue : VarHeap} (hs : d.Stocked t.varCount t.Free)
    (hpop : d.queue.pop (moreActive d.activities) = (some v, queue)) : d.Foremost t v :=
  fun hd u hu => (hs.ordered hd).not_before_root (strictWeak_moreActive hd)
    (VarHeap.pop_eq_some_iff.1 hpop).1 (hs.waiting u hu.1 hu.2)

/-- The last stage answers with an open variable that none exceeds in activity, and with nothing
when no variable is open. -/
theorem pickActive_spec : ∀ {n : Nat} {d : Decisions} {o : Option Var},
    pickActive t n d = .ok (o, d') → d.Stocked t.varCount t.Free →
    d.queue.items.toList.length ≤ n →
    (o = none → d'.Stocked t.varCount t.Free ∧ ∀ v, ¬d.Open t v) ∧
      ∀ v, o = some v → d.Foremost t v ∧ d'.Stocked t.varCount fun u => t.Free u ∧ u ≠ v := by
  intro n
  induction n with
  | zero =>
      intro d o h hs hn
      simp only [pickActive, pure_eq_ok, Prod.mk.injEq] at h
      obtain ⟨rfl, rfl⟩ := h
      have hnil := List.eq_nil_of_length_eq_zero (Nat.le_zero.1 hn)
      exact ⟨fun _ => ⟨hs, hs.not_open_of_nil hnil⟩, by simp⟩
  | succ n ih =>
      intro d o h hs hn
      rw [pickActive] at h
      split at h
      next queue hpop =>
          simp only [pure_eq_ok, Prod.mk.injEq] at h
          obtain ⟨rfl, rfl⟩ := h
          obtain ⟨rfl, hnil⟩ := VarHeap.pop_eq_none hpop
          exact ⟨fun _ => ⟨hs, hs.not_open_of_nil hnil⟩, by simp⟩
      next v queue hpop =>
          simp only [bind_eq_ok] at h
          obtain ⟨b, hb, h⟩ := h
          have hs₁ := hs.pop hpop hb
          cases b with
          | true =>
              simp only [if_true, pure_eq_ok, Prod.mk.injEq] at h
              obtain ⟨rfl, rfl⟩ := h
              refine ⟨by simp, fun u hu => ?_⟩
              obtain rfl := Option.some.inj hu
              exact ⟨hs.foremost hpop, hs₁.mono fun u hu => ⟨hu.1, fun _ => hu.2⟩⟩
          -- a variable that may not be decided is dropped, and the queue is shorter
          | false =>
              have hlen : queue.items.toList.length ≤ n := by
                have := (VarHeap.pop_eq_some hs.placed.listed hpop).2.length_eq
                rw [List.length_cons] at this
                omega
              have hrest := ih h hs₁.of_refused hlen
              exact hrest

/-- Neither the random numbers nor how often they were used matter. -/
theorem Stocked.reseed {n : Nat} {free : Var → Prop} (hs : d.Stocked n free)
    (generator : Generator) (count : Nat) :
    Stocked { d with generator, randomDecisions := count } n free :=
  ⟨hs.placed, hs.ordered, hs.chosen, hs.rated, hs.queued, hs.waiting, hs.passed⟩

/-- A variable that is picked is open, and it is foremost where none is drawn at random. -/
theorem pickVar_spec {o : Option Var} (h : d.pickVar t = .ok (o, d'))
    (hs : d.Stocked t.varCount t.Free) :
    (∃ generator count queue, d' = { d with generator, randomDecisions := count, queue }) ∧
      (o = none → d'.Stocked t.varCount t.Free ∧ ∀ v, ¬d.Open t v) ∧
      ∀ v, o = some v → d.Open t v ∧ (¬d.settings.randomFreq > 0.0 → d.Foremost t v) ∧
        d'.Stocked t.varCount fun u => t.Free u ∧ u ≠ v := by
  rcases pickVar_eq_ok.1 h with ⟨v, rfl, hrandom⟩ | ⟨d₁, hrandom, hactive⟩
  · obtain ⟨⟨generator, count, rfl⟩, hsome⟩ := exists_of_pickRandom hrandom
    obtain ⟨hopen, hfreq⟩ := hsome v rfl
    refine ⟨⟨generator, count, d.queue, rfl⟩, by simp, fun u hu => ?_⟩
    obtain rfl := Option.some.inj hu
    exact ⟨hopen, fun hno => absurd hfreq hno, (hs.reseed generator count).mono fun u hu => hu.1⟩
  · obtain ⟨⟨generator, count, rfl⟩, -⟩ := exists_of_pickRandom hrandom
    obtain ⟨⟨queue, rfl⟩, hopen⟩ := exists_of_pickActive hactive
    obtain ⟨hnone, hsome⟩ := pickActive_spec hactive (hs.reseed generator count)
      (by simp [VarHeap.size])
    exact ⟨⟨generator, count, queue, rfl⟩, hnone, fun v hv => ⟨hopen v hv, fun _ => (hsome v hv).1,
      (hsome v hv).2⟩⟩

/-! ## A pick -/

/-- What a pick answers, and what it leaves. -/
structure Picks (d : Decisions) (t : Trail) (o : Option Lit) (d' : Decisions) : Prop where
  complete : o = none → ∀ v, ¬d.Open t v
  isOpen : ∀ l, o = some l → d.Open t l.var
  ordered : ∀ l, d.FirstOpen t l → o = some l
  foremost : d.OrderDone t → ¬d.settings.randomFreq > 0.0 → ∀ l, o = some l → d.Foremost t l.var
  remembered : d.OrderDone t → d.settings.randomSide = false → ∀ l, o = some l →
    ∃ c, d.choices.get? l.var.index = some c ∧ l.negated = c.negated
  stocked : d'.Stocked t.varCount fun v => t.Free v ∧ o.map Lit.var ≠ some v
  settings : d'.settings = d.settings
  choices : d'.choices = d.choices

/-- A literal of the caller's order is picked. -/
theorem Picks.of_order {l : Lit} (hl : d.FirstOpen t l)
    (hs : d'.Stocked t.varCount fun v => t.Free v ∧ v ≠ l.var)
    (hsettings : d'.settings = d.settings) (hchoices : d'.choices = d.choices) :
    d.Picks t (some l) d' := by
  have hnot : ¬d.OrderDone t := fun hdone => hdone.not_firstOpen l hl
  refine ⟨by simp, fun m hm => ?_, fun m hm => ?_, fun hdone => absurd hdone hnot,
    fun hdone => absurd hdone hnot, hs.mono fun v hv => ⟨hv.1, ?_⟩, hsettings, hchoices⟩
  · obtain rfl := Option.some.inj hm
    exact hl.1
  · rw [hl.unique hm]
  · rintro rfl
    exact hv.2 rfl

/-- A variable is picked, as the order is of no help. -/
theorem Picks.of_var {negated : Bool} (hdone : d.OrderDone t) (hopen : d.Open t v)
    (hforemost : ¬d.settings.randomFreq > 0.0 → d.Foremost t v)
    (hside : d.settings.randomSide = false →
      ∃ c, d.choices.get? v.index = some c ∧ negated = c.negated)
    (hs : d'.Stocked t.varCount fun u => t.Free u ∧ u ≠ v)
    (hsettings : d'.settings = d.settings) (hchoices : d'.choices = d.choices) :
    d.Picks t (some (v.lit negated)) d' := by
  have hsome : ∀ {P : Lit → Prop}, P (v.lit negated) →
      ∀ l, some (v.lit negated) = some l → P l := fun hP l hl => Option.some.inj hl ▸ hP
  refine ⟨by simp, hsome hopen, fun l hl => absurd hl (hdone.not_firstOpen l),
    fun _ hfreq => hsome (hforemost hfreq), fun _ hno => hsome (hside hno),
    hs.mono fun u hu => ⟨hu.1, ?_⟩, hsettings, hchoices⟩
  rintro rfl
  exact hu.2 rfl

/-- Every pick follows the rule. -/
theorem picks_of_pick {o : Option Lit} (h : d.pick t = .ok (o, d'))
    (hs : d.Stocked t.varCount t.Free) : d.Picks t o d' := by
  cases drawn_of_pick h with
  | listed hordered =>
      obtain ⟨⟨head, rfl⟩, -⟩ := exists_of_pickOrdered hordered
      obtain ⟨hfirst, hs'⟩ := (pickOrdered_spec hordered hs (le_refl _)).2 _ rfl
      exact .of_order hfirst hs' rfl rfl
  | nothing hordered hvar =>
      obtain ⟨⟨head, rfl⟩, -⟩ := exists_of_pickOrdered hordered
      obtain ⟨hs₁, hdone⟩ := (pickOrdered_spec hordered hs (le_refl _)).1 rfl
      obtain ⟨⟨generator, count, queue, rfl⟩, hnone, -⟩ := pickVar_spec hvar hs₁
      obtain ⟨hs₂, hall⟩ := hnone rfl
      exact ⟨fun _ => hall, by simp, fun l hl => absurd hl (OrderDone.not_firstOpen hdone l),
        by simp, by simp, hs₂.mono fun v hv => hv.1, rfl, rfl⟩
  | @randomSide d₁ d₂ v hordered hvar hside =>
      obtain ⟨⟨head, rfl⟩, -⟩ := exists_of_pickOrdered hordered
      obtain ⟨hs₁, hdone⟩ := (pickOrdered_spec hordered hs (le_refl _)).1 rfl
      obtain ⟨⟨generator, count, queue, rfl⟩, -, hsome⟩ := pickVar_spec hvar hs₁
      obtain ⟨hopen, hforemost, hs₂⟩ := hsome v rfl
      exact .of_var hdone hopen hforemost (fun hno => absurd (hno.symm.trans hside)
        Bool.false_ne_true) (hs₂.reseed _ count) rfl rfl
  | @knownSide d₁ _ v c hordered hvar hc =>
      obtain ⟨⟨head, rfl⟩, -⟩ := exists_of_pickOrdered hordered
      obtain ⟨hs₁, hdone⟩ := (pickOrdered_spec hordered hs (le_refl _)).1 rfl
      obtain ⟨⟨generator, count, queue, rfl⟩, -, hsome⟩ := pickVar_spec hvar hs₁
      obtain ⟨hopen, hforemost, hs₂⟩ := hsome v rfl
      exact .of_var hdone hopen hforemost (fun _ => ⟨c, hc, rfl⟩) hs₂ rfl rfl

/-! ## A pick is answered -/

/-- The literals of the caller's order are known, up to the first one over an open variable. -/
def OrderKnown (d : Decisions) (t : Trail) : Prop :=
  ∀ earlier l later, d.order.toList = earlier ++ l :: later → (∀ m ∈ earlier, ¬d.Open t m.var) →
    l.var.index < t.varCount

/-- The first stage is not refused when the variables of the order are known. -/
theorem Stocked.succeeds_pickOrdered : ∀ {n : Nat} {d : Decisions}, d.Stocked t.varCount t.Free →
    d.OrderKnown t → Succeeds (pickOrdered t n d) := by
  intro n
  induction n with
  | zero => exact fun _ _ => succeeds_pure _
  | succ n ih =>
      intro d hs hknown
      rw [pickOrdered]
      split
      next => exact succeeds_pure _
      next l hl =>
          rw [← Array.getElem?_toList] at hl
          have hlt := hknown _ _ _ (order_eq hl) fun m hm hm' => (hs.passed m hm).2 hm'.1 hm'.2
          refine succeeds_bind (succeeds_eligible hlt (hs.isSome_decides.2 hlt)) fun b hb => ?_
          cases b with
          | true => exact succeeds_pure _
          | false => exact ih (hs.pass hl hb).of_refused hknown

/-- A pick is not refused when the variables of the order are known and the generator is steady. -/
theorem Stocked.succeeds_pick (hs : d.Stocked t.varCount t.Free) (hknown : d.OrderKnown t)
    (hsteady : d.Steady) : Succeeds (d.pick t) := by
  by_cases hopen : ∃ l ∈ d.order.toList, d.Open t l.var
  · refine succeeds_bind (hs.succeeds_pickOrdered hknown) ?_
    rintro ⟨o, d₁⟩ hordered
    cases o with
    | some l => exact succeeds_pure _
    | none =>
        obtain ⟨l, hl, hopen⟩ := hopen
        exact absurd hopen (((pickOrdered_spec hordered hs (le_refl _)).1 rfl).2 l hl)
  · -- no literal is over an open variable, so all are known
    refine Decisions.succeeds_pick (hs.ready fun l hl => ?_)
      (fun v hv => hs.isSome_decides.1 hv) hsteady
    obtain ⟨earlier, later, hsplit⟩ := List.append_of_mem hl
    exact hknown earlier l later hsplit fun m hm hm' => hopen ⟨m, by simp [hsplit, hm], hm'⟩

end Decisions

end CardSat
