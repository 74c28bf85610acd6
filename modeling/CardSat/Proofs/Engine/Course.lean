import CardSat.Proofs.Decision.Picking
import CardSat.Proofs.Engine.Passages
import CardSat.Proofs.Engine.Underway

set_option autoImplicit false

/-! # The course of an interval

From one restart to the next a search goes through conflicts, decisions and levels without literals.
`Engine.Course` counts them, round by round, whatever the limit of conflicts, the budget and the
handler say, and `Engine.Ends` says how the last round ends.

Each conflict and each decision enlarges the rank of the trail (`Course.rank_le`), so there are
fewer than `3 ^ n` of them over `n` variables, and before each decision a level can be opened for
each assumption (`Course.empties_le`). So the rounds that an interval is given suffice for it
(`returns_of_interval`).

## Why the rank grows

The rank of a trail reads its positions as the digits of a number to the base three: nothing counts
zero, a literal with which a level begins counts one, and any other literal counts two. A decision
puts a one where there was nothing. A conflict takes back the literals from the beginning of some
level on, and puts a literal without a level of its own there, so a one becomes a two, and what came
after it counts for less. So a course can not return to a trail it has been to, and its length is
bounded by the number of ranks.

The bound is a number of rounds that no search comes near. It serves to show that the recursion of
an interval, which counts its rounds, never runs out.
-/

namespace CardSat

namespace Engine

/-- What a search goes through. -/
structure Effort where
  conflicts : Nat := 0
  decisions : Nat := 0
  /-- The levels that are opened for assumptions that are true already. -/
  empties : Nat := 0

/-- The rounds of an interval that begins in `e`, each with the effort so far and the state in which
it begins. -/
inductive Course (task : Task) (e : Engine) : Effort → Engine → Prop
  | start : Course task e {} e
  | decide {k : Effort} {e₁ e₂ e₃ e₄ e₅ e₆ : Engine} {l : Lit} (hc : Course task e k e₁)
      (hpropagate : e₁.propagate = .ok (none, e₂)) (hsimplify : e₂.simplify = .ok e₃)
      (hreduce : e₃.reduce = .ok e₄) (hchoose : e₄.choose task.assumptions = .ok (.decide l, e₅))
      (hdecide : e₅.decideLit l = .ok e₆) :
      Course task e { k with
        decisions := k.decisions + 1
        empties := k.empties + (e₅.trail.level - e₄.trail.level) } e₆
  | learn {k : Effort} {e₁ e₂ e₃ : Engine} {h : Handle} (hc : Course task e k e₁)
      (hpropagate : e₁.propagate = .ok (some h, e₂))
      (hlearn : { e₂ with conflicts := e₂.conflicts + 1 }.learnFrom h = .ok (true, e₃)) :
      Course task e { k with conflicts := k.conflicts + 1 } e₃

/-- How an interval ends in a round that begins in a state: with an answer or without one, in a new
state and after some effort. -/
inductive Ends (task : Task) : Engine → Effort → Option Answer → Engine → Prop
  | restart {e₁ e₂ e₃ : Engine} (hpropagate : e₁.propagate = .ok (none, e₂))
      (hcancel : e₂.cancelUntil 0 = .ok e₃) : Ends task e₁ {} none e₃
  | interrupted {e₁ e₂ e₃ : Engine} (hpropagate : e₁.propagate = .ok (none, e₂))
      (hcancel : e₂.cancelUntil 0 = .ok e₃) :
      Ends task e₁ {} (some (.interrupted e₂.trail.progress)) e₃
  | failed {e₁ e₂ e₃ e₄ e₅ : Engine} {core : List Lit}
      (hpropagate : e₁.propagate = .ok (none, e₂)) (hsimplify : e₂.simplify = .ok e₃)
      (hreduce : e₃.reduce = .ok e₄)
      (hchoose : e₄.choose task.assumptions = .ok (.failed core, e₅)) :
      Ends task e₁ { empties := e₅.trail.level - e₄.trail.level } (some (.unsat core)) e₅
  | complete {e₁ e₂ e₃ e₄ e₅ : Engine} (hpropagate : e₁.propagate = .ok (none, e₂))
      (hsimplify : e₂.simplify = .ok e₃) (hreduce : e₃.reduce = .ok e₄)
      (hchoose : e₄.choose task.assumptions = .ok (.complete, e₅)) :
      Ends task e₁ { empties := e₅.trail.level - e₄.trail.level } (some (.sat e₅.trail.model)) e₅
  | refuted {e₁ e₂ e₃ : Engine} {h : Handle} (hpropagate : e₁.propagate = .ok (some h, e₂))
      (hlearn : { e₂ with conflicts := e₂.conflicts + 1 }.learnFrom h = .ok (false, e₃)) :
      Ends task e₁ { conflicts := 1 } (some (.unsat [])) e₃
  | canceled {e₁ e₂ : Engine} {h : Handle} (hpropagate : e₁.propagate = .ok (some h, e₂)) :
      Ends task e₁ { conflicts := 1 } (some .canceled) { e₂ with conflicts := e₂.conflicts + 1 }

variable {e e' e₀ : Engine} {R : World → Prop} {good : Prop} {as : Array Lit} {task : Task}
  {k : Effort} {l : Lit} {h : Handle}

/-- A state that a course leads to is one in which a round begins. -/
theorem Course.round (hc : Course task e k e') : Round task e e' := by
  induction hc with
  | start => exact .first
  | decide _ hprop hsimp hred hchoose hdecide ih => exact ih.decide hprop hsimp hred hchoose hdecide
  | learn _ hprop hlearn ih => exact ih.learn hprop hlearn

/-- A course leads from a search under way to a search under way. -/
theorem Course.underway (hc : Course task e k e') (hu : Underway R good task.assumptions e₀ e) :
    Underway R good task.assumptions e₀ e' :=
  underway_of_round hu hc.round

/-! ## Steps that count no conflict

Only the loop from one conflict to the next counts, so every step it takes has to leave the counter
alone. -/

/-- Propagation counts no conflict. -/
theorem conflicts_of_propagate {failed : Option Handle} (h : e.propagate = .ok (failed, e')) :
    e'.conflicts = e.conflicts := by
  obtain ⟨_, -, rfl⟩ := propagate_eq_ok.1 h
  rfl

/-- Going back counts no conflict. -/
theorem conflicts_of_cancelUntil {b : Nat} (h : e.cancelUntil b = .ok e') :
    e'.conflicts = e.conflicts := by
  obtain ⟨d, -, rfl⟩ := cancelUntil_eq_ok.1 h
  rfl

/-- A decision counts no conflict. -/
theorem conflicts_of_decideLit (h : e.decideLit l = .ok e') : e'.conflicts = e.conflicts := by
  obtain ⟨_, -, rfl⟩ := decideLit_eq_ok.1 h
  rfl

/-- Simplifying counts no conflict. -/
theorem conflicts_of_simplify (h : e.simplify = .ok e') : e'.conflicts = e.conflicts := by
  rcases simplify_eq_ok h with rfl | ⟨-, _, _, e₁, d, -, hsweep, -, rfl⟩
  · rfl
  · obtain ⟨_, -, -, rfl⟩ := afterSweep_eq_ok hsweep
    rfl

/-- Reducing counts no conflict. -/
theorem conflicts_of_reduce (h : e.reduce = .ok e') : e'.conflicts = e.conflicts := by
  rcases reduce_eq_ok h with rfl | ⟨_, _, e₁, -, hsweep, rfl⟩
  · rfl
  · obtain ⟨_, -, -, rfl⟩ := afterSweep_eq_ok hsweep
    rfl

/-- The analysis counts no conflict. -/
theorem conflicts_of_analyze {lesson : Lesson} (ha : e.analyze h = .ok (lesson, e')) :
    e'.conflicts = e.conflicts := by
  obtain ⟨x, _, d, _, _, -, -, -, -, -, rfl⟩ := analyze_eq_ok ha
  rfl

/-- Learning counts no conflict. -/
theorem conflicts_of_learn {lits : Array Lit} (hl : e.learn l lits = .ok e') :
    e'.conflicts = e.conflicts := by
  rw [learn] at hl
  split at hl
  next =>
      simp only [assign, bind_eq_ok, pure_eq_ok] at hl
      obtain ⟨_, -, rfl⟩ := hl
      rfl
  next =>
      simp only [watch, assign, bind_eq_ok, pure_eq_ok] at hl
      obtain ⟨_, -, _, ⟨_, -, _, -, rfl⟩, _, -, rfl⟩ := hl
      rfl

/-- Nothing that happens up to a choice is counted. -/
theorem conflicts_of_choose {e₁ e₂ e₃ e₄ : Engine} {c : Choosing}
    (hprop : e.propagate = .ok (none, e₁)) (hsimp : e₁.simplify = .ok e₂)
    (hred : e₂.reduce = .ok e₃) (hchoose : e₃.choose as = .ok (c, e₄)) :
    e₄.conflicts = e.conflicts := by
  have hchosen : e₄.conflicts = e₃.conflicts := by
    obtain ⟨_, -, _, _, _, -, rfl⟩ := opened_of_choose hchoose
    rfl
  calc e₄.conflicts = e₃.conflicts := hchosen
    _ = e₂.conflicts := conflicts_of_reduce hred
    _ = e₁.conflicts := conflicts_of_simplify hsimp
    _ = e.conflicts := conflicts_of_propagate hprop

/-- The conflict from which is learnt was counted before. -/
theorem conflicts_of_learnFrom {b : Bool} (hl : e.learnFrom h = .ok (b, e')) :
    e'.conflicts = e.conflicts := by
  have hlearnt : ∀ {level : Nat} {l : Lit} {lits : Array Lit} {e₁ e₂ e₃ : Engine},
      e₁.conflicts = e.conflicts → e₁.cancelUntil level = .ok e₂ → e₂.learn l lits = .ok e₃ →
      e₃.decay.countTowardsLimit.conflicts = e.conflicts := fun {_ _ _ _ _ e₃} h₁ hcancel hlearn => by
    obtain ⟨_, _, hcount⟩ := exists_countTowardsLimit e₃.decay
    rw [hcount]
    exact ((conflicts_of_learn hlearn).trans (conflicts_of_cancelUntil hcancel)).trans h₁
  cases learnsFrom_of_learnFrom hl with
  | unsatisfiable hanalyze => exact conflicts_of_analyze hanalyze
  | unit hanalyze hcancel hlearn => exact hlearnt (conflicts_of_analyze hanalyze) hcancel hlearn
  | clause hanalyze hcancel _ hlearn => exact hlearnt (conflicts_of_analyze hanalyze) hcancel hlearn

/-! ## Choosing -/

/-- What is chosen among the assumptions has no value. -/
theorem unset_of_chooseAssumption : ∀ {n : Nat} {e : Engine},
    chooseAssumption as n e = .ok (some (.decide l), e') →
      l.var.index < e'.trail.varCount ∧ e'.trail.truth l = .unset := by
  intro n
  induction n with
  | zero => exact fun h => nomatch h
  | succ n ih =>
      intro e h
      simp only [chooseAssumption] at h
      split at h
      next => cases h
      next p hp =>
          simp only [bind_eq_ok, Trail.value_eq_ok] at h
          obtain ⟨x, ⟨hlt, hx⟩, h⟩ := h
          split at h
          -- an assumption that is true already only opens a level
          next => exact ih h
          next =>
              simp only [bind_eq_ok, pure_eq_ok, Prod.mk.injEq, Option.some.injEq] at h
              obtain ⟨_, -, hno, -⟩ := h
              cases hno
          next =>
              simp only [pure_eq_ok, Prod.mk.injEq, Option.some.injEq, Choosing.decide.injEq] at h
              obtain ⟨rfl, rfl⟩ := h
              exact ⟨hlt, hx⟩

/-- What is chosen has no value, so it can be decided. -/
theorem succeeds_decideLit (hchoose : e.choose as = .ok (.decide l, e')) :
    Succeeds (e'.decideLit l) := by
  suffices l.var.index < e'.trail.varCount ∧ e'.trail.truth l = .unset from
    succeeds_bind (Trail.succeeds_assign (t := e'.trail.openLevel) this.1 this.2 none)
      fun _ _ => succeeds_pure _
  cases chooses_of_choose hchoose with
  | assumed hassumed => exact unset_of_chooseAssumption hassumed
  | decide _ hpick =>
      have hfree := Decisions.free_of_pick hpick
      exact ⟨hfree.1, Trail.isUnset_iff.1 hfree.2⟩

/-- Opening levels adds no variable. -/
theorem varCount_iterate_openLevel (t : Trail) (n : Nat) :
    (Trail.openLevel^[n] t).varCount = t.varCount := by
  induction n with
  | zero => rfl
  | succ n ih =>
      rw [Function.iterate_succ_apply']
      exact ih

/-- Choosing is not refused if picking a decision is not, once no assumption is left. -/
theorem succeeds_choose (hu : Underway R good as e₀ e) (hidle : e.Idle)
    (hs : ∀ e₁, chooseAssumption as (as.size - e.trail.level) e = .ok (none, e₁) →
      e₁.decisions.Steady) (has : ∀ p ∈ as.toList, p.var.index < e.trail.varCount) :
    Succeeds (e.choose as) := by
  refine succeeds_bind (succeeds_chooseAssumption hu.fit hidle has) ?_
  rintro ⟨o, e₁⟩ hassume
  cases o with
  | some c => exact succeeds_pure _
  | none =>
      have hsteady := hs e₁ hassume
      have hs₁ := ((chosen_of_chooseAssumption hu.searching hidle (by omega) hassume).1 rfl).1
      -- no assumption is left, and only levels without literals were opened for them
      obtain ⟨n, -, a, rfl⟩ := opened_of_chooseAssumption hassume
      have hpick : Succeeds (e.decisions.pick (Trail.openLevel^[n] e.trail)) :=
        Decisions.succeeds_pick hs₁.reaches.fit.ready (fun v hv => by
          rw [varCount_iterate_openLevel]
          exact (hu.orderly.known v).1 hv) hsteady
      refine succeeds_bind hpick ?_
      rintro ⟨next, d⟩ -
      cases next with
      | none => exact succeeds_pure _
      | some l => exact succeeds_pure _

/-- At most one level is opened for every assumption. -/
theorem level_of_choose {c : Choosing} (h : e.choose as = .ok (c, e')) :
    e'.trail.level - e.trail.level ≤ as.size := by
  obtain ⟨n, hn, a, d, m, -, rfl⟩ := opened_of_choose h
  have hlevel : (Trail.openLevel^[n] e.trail).level = e.trail.level + n := by
    clear hn h
    induction n with
    | zero => rfl
    | succ n ih => rw [Function.iterate_succ_apply', Trail.level_openLevel, ih, Nat.add_assoc]
  show (Trail.openLevel^[n] e.trail).level - e.trail.level ≤ as.size
  omega

/-! ## The rank grows -/

/-- A level without literals has no place in the rank. -/
theorem rank_iterate_openLevel (t : Trail) (n m : Nat) :
    (Trail.openLevel^[n] t).rank m = t.rank m := by
  induction n with
  | zero => rfl
  | succ n ih => rw [Function.iterate_succ_apply', Trail.rank_openLevel, ih]

/-- Opening levels assigns nothing. -/
theorem lits_iterate_openLevel (t : Trail) (n : Nat) :
    (Trail.openLevel^[n] t).lits = t.lits := by
  induction n with
  | zero => rfl
  | succ n ih =>
      rw [Function.iterate_succ_apply']
      exact ih

/-- A decision enlarges the trail, and its rank. -/
theorem rank_lt_of_decideLit {e₁ e₂ e₃ e₄ e₅ e₆ : Engine}
    (hu : Underway R good task.assumptions e₀ e₁) (hprop : e₁.propagate = .ok (none, e₂))
    (hsimp : e₂.simplify = .ok e₃) (hred : e₃.reduce = .ok e₄)
    (hchoose : e₄.choose task.assumptions = .ok (.decide l, e₅))
    (hdecide : e₅.decideLit l = .ok e₆) :
    e₁.trail.lits.size < e₆.trail.lits.size ∧
      e₁.trail.rank e₁.trail.varCount < e₆.trail.rank e₁.trail.varCount := by
  obtain ⟨hidle, hlonger, hnone, -⟩ := hu.propagate hprop
  obtain ⟨hidle', hclear, hu'⟩ := (hnone rfl).tidy hidle hsimp hred
  have hu'' := hu'.decide hidle' hchoose hdecide
  have hcount : e₆.trail.varCount = e₁.trail.varCount :=
    hu''.searching.reaches.varCount.trans hu.searching.reaches.varCount.symm
  obtain ⟨n, -, a, d, m, -, rfl⟩ := opened_of_choose hchoose
  obtain ⟨t, ht, rfl⟩ := decideLit_eq_ok.1 hdecide
  have ha : (Trail.openLevel^[n] e₄.trail).openLevel.Assigned l none t :=
    Trail.assigned_of_assign ht
  -- simplifying, reducing and opening levels leave the literals of the trail alone
  have hopened : (Trail.openLevel^[n] e₄.trail).lits.size = e₂.trail.lits.size := by
    rw [lits_iterate_openLevel, hclear.lits]
  have hsize : t.lits.size = (Trail.openLevel^[n] e₄.trail).lits.size + 1 := ha.size_eq
  have hle : e₁.trail.lits.size ≤ e₂.trail.lits.size := by simpa using hlonger.lits.length_le
  have hfull : t.lits.size ≤ e₁.trail.varCount := hcount ▸ hu''.valid.size_le
  refine ⟨show e₁.trail.lits.size < t.lits.size by omega, ?_⟩
  refine Nat.lt_of_le_of_lt (hlonger.rank_le _) ?_
  rw [← hclear.rank_eq, ← rank_iterate_openLevel _ n]
  exact Trail.rank_lt_of_decide (by omega) ha

/-- So does a lesson, for the rank. -/
theorem rank_lt_of_learnFrom {e₁ e₂ e₃ : Engine} (hu : Underway R good task.assumptions e₀ e₁)
    (hprop : e₁.propagate = .ok (some h, e₂))
    (hlearn : { e₂ with conflicts := e₂.conflicts + 1 }.learnFrom h = .ok (true, e₃)) :
    e₁.trail.rank e₁.trail.varCount < e₃.trail.rank e₁.trail.varCount := by
  obtain ⟨-, hlonger, -, hsome⟩ := hu.propagate hprop
  have hh := (hsome h rfl).counted
  obtain ⟨n, m, hback⟩ := backjump_of_learnFrom hh hlearn
  refine Nat.lt_of_le_of_lt (hlonger.rank_le _) (hback.rank_lt hh.valid ?_)
  exact hlonger.varCount ▸ hh.valid.size_le

namespace Course

/-- A course adds no variable. -/
theorem varCount (hc : Course task e k e') (hu : Underway R good task.assumptions e₀ e) :
    e'.trail.varCount = e.trail.varCount :=
  (hc.underway hu).searching.reaches.varCount.trans hu.searching.reaches.varCount.symm

/-- Every conflict and every decision enlarges the rank of the trail. -/
theorem rank_le (hc : Course task e k e') (hu : Underway R good task.assumptions e₀ e) :
    k.conflicts + k.decisions + e.trail.rank e.trail.varCount ≤
      e'.trail.rank e.trail.varCount := by
  induction hc with
  | start => simp
  | decide hc hprop hsimp hred hchoose hdecide ih =>
      have := (rank_lt_of_decideLit (hc.underway hu) hprop hsimp hred hchoose hdecide).2
      rw [hc.varCount hu] at this
      dsimp only
      omega
  | learn hc hprop hlearn ih =>
      have := rank_lt_of_learnFrom (hc.underway hu) hprop hlearn
      rw [hc.varCount hu] at this
      dsimp only
      omega

/-- There are fewer conflicts and decisions than ranks. -/
theorem effort_lt (hc : Course task e k e') (hu : Underway R good task.assumptions e₀ e) :
    k.conflicts + k.decisions < 3 ^ e.trail.varCount := by
  have := hc.rank_le hu
  have := e'.trail.rank_lt e.trail.varCount
  omega

/-- Before each decision at most one level is opened for every assumption. -/
theorem empties_le (hc : Course task e k e') :
    k.empties ≤ task.assumptions.size * k.decisions := by
  induction hc with
  | start => exact Nat.zero_le _
  | decide _ _ _ _ hchoose _ ih =>
      have := level_of_choose hchoose
      rw [Nat.mul_succ]
      dsimp only
      omega
  | learn _ _ _ ih => exact ih

/-- The counter of the engine counts the conflicts. -/
theorem conflicts_eq (hc : Course task e k e') : e'.conflicts = e.conflicts + k.conflicts := by
  induction hc with
  | start => rfl
  | @decide k e₁ e₂ e₃ e₄ e₅ e₆ l _ hprop hsimp hred hchoose hdecide ih =>
      rw [conflicts_of_decideLit hdecide, conflicts_of_choose hprop hsimp hred hchoose, ih]
  | learn _ hprop hlearn ih =>
      rw [conflicts_of_learnFrom hlearn]
      dsimp only
      rw [conflicts_of_propagate hprop, ih, Nat.add_assoc]

end Course

/-- The last round takes one conflict at most and no decision. -/
theorem Ends.effort_le {o : Option Answer} (h : Ends task e k o e') :
    k.conflicts ≤ 1 ∧ k.decisions = 0 ∧ k.empties ≤ task.assumptions.size := by
  cases h with
  | restart _ _ => exact ⟨Nat.zero_le _, rfl, Nat.zero_le _⟩
  | interrupted _ _ => exact ⟨Nat.zero_le _, rfl, Nat.zero_le _⟩
  | failed _ _ _ hchoose => exact ⟨Nat.zero_le _, rfl, level_of_choose hchoose⟩
  | complete _ _ _ hchoose => exact ⟨Nat.zero_le _, rfl, level_of_choose hchoose⟩
  | refuted _ _ => exact ⟨Nat.le_refl _, rfl, Nat.zero_le _⟩
  | canceled _ => exact ⟨Nat.le_refl _, rfl, Nat.zero_le _⟩

/-! ## Intervals return -/

/-- How a stretch ends in a round that begins in a state. -/
def Stops (task : Task) (e e' : Engine) : Pause → Prop
  | .conflict h => ∃ e₁, e.propagate = .ok (some h, e₁) ∧
      e' = { e₁ with conflicts := e₁.conflicts + 1 }
  | .restart => ∃ k, Ends task e k none e'
  | .answer a => ∃ k, Ends task e k (some a) e'

section

variable (hu : Underway R good task.assumptions e₀ e)
  (hs : ∀ e', Picking task e e' → e'.decisions.Steady)
  (has : ∀ p ∈ task.assumptions.toList, p.var.index < e.trail.varCount)

include hu hs has

/-- Every round of a stretch but the last enlarges the trail, so the rounds suffice. -/
theorem returns_of_stretch (limit : Nat) : ∀ {rounds : Nat} {k : Effort} {e₁ : Engine},
    Course task e k e₁ → e.trail.varCount < e₁.trail.lits.size + rounds →
    ∃ p e' k' e₂, e₁.stretch task limit rounds = .ok (p, e') ∧ Course task e k' e₂ ∧
      k'.conflicts = k.conflicts ∧ Stops task e₂ e' p := by
  intro rounds
  induction rounds with
  | zero =>
      -- the trail would have more literals than there are variables
      intro k e₁ hc hlt
      have := (hc.underway hu).valid.size_le
      have := hc.varCount hu
      omega
  | succ rounds ih =>
      intro k e₁ hc hlt
      have hu₁ := hc.underway hu
      obtain ⟨failed, e₂, hprop, -⟩ := returns_of_propagate hu₁.fit hu₁.orderly
      obtain ⟨hidle, hlonger, hnone, hsome⟩ := hu₁.propagate hprop
      cases failed with
      | some h =>
          refine ⟨.conflict h, { e₂ with conflicts := e₂.conflicts + 1 }, k, e₁, ?_, hc, rfl, e₂,
            hprop, rfl⟩
          simp only [stretch, hprop, ok_bind, pure, Except.pure]
      | none =>
          have hu₂ := hnone rfl
          obtain ⟨e₃, hcancel⟩ := succeeds_cancelUntil hu₂.fit hu₂.orderly 0
          -- from here on the cases are those of a round without a conflict, in its order
          by_cases hbudget : (!task.budget.within (e₂.conflicts - task.baseConflicts)
              (e₂.network.propagations - task.basePropagations)) = true
          · refine ⟨.answer (.interrupted e₂.trail.progress), e₃, k, e₁, ?_, hc, rfl, _,
              .interrupted hprop hcancel⟩
            simp only [stretch, hprop, ok_bind, hbudget, if_true, hcancel, pure, Except.pure]
          by_cases hlimit : e₂.conflicts ≥ limit
          · refine ⟨.restart, e₃, k, e₁, ?_, hc, rfl, _, .restart hprop hcancel⟩
            simp only [stretch, hprop, ok_bind, hbudget, hlimit, if_true, hcancel, pure,
              Except.pure]
            rfl
          obtain ⟨e₃, e₄, hsimp, hred⟩ := hu₂.returns_of_tidy
          obtain ⟨hidle₄, -, hu₄⟩ := hu₂.tidy hidle hsimp hred
          obtain ⟨⟨c, e₅⟩, hchoose⟩ := succeeds_choose hu₄ hidle₄
              (fun _ hassumed => hs _ (.pick hc.round hprop hsimp hred hassumed)) fun p hp => by
            rw [hu₄.searching.reaches.varCount, ← hu.searching.reaches.varCount]
            exact has p hp
          cases c with
          | failed core =>
              refine ⟨.answer (.unsat core), e₅, k, e₁, ?_, hc, rfl, _,
                .failed hprop hsimp hred hchoose⟩
              simp only [stretch, hprop, ok_bind, hbudget, hlimit, if_false, hsimp, hred, hchoose,
                Bool.false_eq_true]
              rfl
          | complete =>
              refine ⟨.answer (.sat e₅.trail.model), e₅, k, e₁, ?_, hc, rfl, _,
                .complete hprop hsimp hred hchoose⟩
              simp only [stretch, hprop, ok_bind, hbudget, hlimit, if_false, hsimp, hred, hchoose,
                Bool.false_eq_true]
              rfl
          | decide l =>
              obtain ⟨e₆, hdecide⟩ := succeeds_decideLit hchoose
              have hlarger := (rank_lt_of_decideLit hu₁ hprop hsimp hred hchoose hdecide).1
              obtain ⟨p, e', k', e₇, hrest, hc', hk', hstops⟩ :=
                ih (hc.decide hprop hsimp hred hchoose hdecide) (by omega)
              refine ⟨p, e', k', e₇, ?_, hc', hk', hstops⟩
              simp only [stretch, hprop, ok_bind, hbudget, hlimit, if_false, hsimp, hred, hchoose,
                Bool.false_eq_true, hdecide, hrest]

variable {σ : Type} (handler : Handler (StateM σ)) (limit : Nat)

/-- Every round of an interval but the last counts a conflict, so the rounds suffice. -/
theorem returns_of_rounds : ∀ {rounds : Nat} {k : Effort} {e₁ : Engine} (st : σ),
    Course task e k e₁ → 3 ^ e.trail.varCount < k.conflicts + rounds →
    ∃ o e' st' k₁ e₂ k₂, Returns (e₁.interval task handler limit rounds) st (o, e') st' ∧
      Course task e k₁ e₂ ∧ Ends task e₂ k₂ o e' := by
  intro rounds
  induction rounds with
  | zero =>
      -- the conflicts counted so far are fewer than the bound
      intro k e₁ st hc hlt
      have := hc.effort_lt hu
      omega
  | succ rounds ih =>
      intro k e₁ st hc hlt
      have hfuel : e.trail.varCount < e₁.trail.lits.size + (e₁.trail.varCount + 2) := by
        have := hc.varCount hu
        omega
      obtain ⟨p, e', k', e₂, hstretch, hc', hk', hstops⟩ :=
        returns_of_stretch hu hs has limit hc hfuel
      simp only [interval, returns_bind, returns_checked]
      cases p with
      | restart =>
          obtain ⟨k₂, hends⟩ := hstops
          exact ⟨none, e', st, k', e₂, k₂, ⟨_, _, ⟨hstretch, rfl⟩, returns_pure.2 ⟨rfl, rfl⟩⟩, hc',
            hends⟩
      | answer a =>
          obtain ⟨k₂, hends⟩ := hstops
          exact ⟨some a, e', st, k', e₂, k₂, ⟨_, _, ⟨hstretch, rfl⟩, returns_pure.2 ⟨rfl, rfl⟩⟩,
            hc', hends⟩
      | conflict h =>
          obtain ⟨e₃, hprop, rfl⟩ := hstops
          have hu₂ := hc'.underway hu
          have hh := ((hu₂.propagate hprop).2.2.2 h rfl).counted
          obtain ⟨⟨b, e₄⟩, hlearn⟩ := succeeds_learnFrom hh
          rcases hgo : handler.onConflict.run st with ⟨_ | _, st₁⟩
          · refine ⟨some .canceled, _, st₁, k', e₂, _, ⟨_, _, ⟨hstretch, rfl⟩, ?_⟩, hc',
              .canceled hprop⟩
            simp only [returns_bind, returns_handler]
            exact ⟨false, st₁, hgo, returns_pure.2 ⟨rfl, rfl⟩⟩
          · cases b with
            | false =>
                refine ⟨some (.unsat []), e₄, st₁, k', e₂, _, ⟨_, _, ⟨hstretch, rfl⟩, ?_⟩, hc',
                  .refuted hprop hlearn⟩
                simp only [returns_bind, returns_handler]
                refine ⟨true, st₁, hgo, ?_⟩
                simp only [if_true, returns_bind, returns_checked]
                exact ⟨_, _, ⟨hlearn, rfl⟩, returns_pure.2 ⟨rfl, rfl⟩⟩
            | true =>
                -- the conflict is counted, so that one round less suffices
                obtain ⟨o, e', st', k₁, e₅, k₂, hrest, hc'', hends⟩ :=
                  ih st₁ (hc'.learn hprop hlearn) (by dsimp only; omega)
                refine ⟨o, e', st', k₁, e₅, k₂, ⟨_, _, ⟨hstretch, rfl⟩, ?_⟩, hc'', hends⟩
                simp only [returns_bind, returns_handler]
                refine ⟨true, st₁, hgo, ?_⟩
                simp only [if_true, returns_bind, returns_checked]
                exact ⟨_, _, ⟨hlearn, rfl⟩, hrest⟩

/-- An interval returns, and what it goes through is bounded. -/
theorem returns_of_interval (st : σ) :
    ∃ o e' st' k₁ e₁ k₂,
      Returns (e.interval task handler limit (3 ^ e.trail.varCount + 1)) st (o, e') st' ∧
      Course task e k₁ e₁ ∧ Ends task e₁ k₂ o e' :=
  returns_of_rounds hu hs has handler limit st .start (by simp)

end

end Engine

end CardSat
