import CardSat.Proofs.Decision
import CardSat.Proofs.Trail.Growing

set_option autoImplicit false

/-! # The values that variables have had

`Past` tells of a variable with which side it was added and on which side it last was when its value
was taken back. It is kept beside a solver and read off the trails alone: when the trail `t` becomes
`t'`, the variables that lose their value are those that `Trail.loses` names (`Trail.pasts`).

`Decisions.Recalls` says that the side on which the next decision takes a variable is the one which
the settings ask for (`Past.side`). So what is called remembering is stated without the table in
which the sides are noted: the past is a function of the history of trails, and the table has to
agree with it after each step.

The three modes of the settings differ in what they remember, and in nothing else. They are one
definition (`Choice.after`, `PhaseSaving.remembers`) on the side of the operations, and one function
of the past (`Past.side`) on the side of the history. The lemma that ties them together is
`Past.side_lose`.
-/

namespace CardSat

/-! ## The past of a variable -/

/-- What became of a variable since it was added. -/
structure Past where
  /-- The side with which it was added. -/
  initial : Bool
  /-- The side of the value that was taken back last. -/
  last : Option Bool := none
  /-- The side of the value that was taken back last from the level that was the topmost one then,
  or by going back to a snapshot. -/
  lastTop : Option Bool := none

namespace Past

/-- The side of the next decision. -/
def side (p : Past) : PhaseSaving → Bool
  | .never => p.initial
  | .topLevel => p.lastTop.getD p.initial
  | .always => p.last.getD p.initial

/-- A value is taken back. -/
def lose (p : Past) (negated fromTop : Bool) : Past :=
  { p with last := some negated, lastTop := if fromTop then some negated else p.lastTop }

/-- Where a loss is remembered, the side is the one that was lost, and otherwise it stays. -/
theorem side_lose (p : Past) (negated fromTop : Bool) (x : PhaseSaving) :
    (p.lose negated fromTop).side x = if x.remembers fromTop then negated else p.side x := by
  cases x with
  | never => rfl
  | topLevel => cases fromTop <;> rfl
  | always => rfl

/-- Losing the same value twice is like losing it once. -/
theorem lose_lose (p : Past) (negated fromTop : Bool) :
    (p.lose negated fromTop).lose negated fromTop = p.lose negated fromTop := by
  cases fromTop <;> rfl

end Past

/-! ## The past of a trail -/

/-- The value of the variable of a true literal. -/
theorem Truth.eq_no_of_ofSide {x : Truth} {negated : Bool} (h : x.ofSide negated = .yes) :
    (x == .no) = negated := by
  revert h
  cases x <;> cases negated <;> decide

namespace Trail

variable {t t' : Trail} {v : Var} {past : Var → Past}

/-- Whether a variable has a value that it does not keep. -/
def loses (t t' : Trail) (v : Var) : Bool :=
  !(t.cellOf v).value.isUnset && (t'.cellOf v).value.isUnset

/-- The side of the value of a variable. -/
def sideOf (t : Trail) (v : Var) : Bool := (t.cellOf v).value == .no

/-- What became of the variables when the trail `t` has become `t'`, and whether this was by going
back to a snapshot. -/
def pasts (t t' : Trail) (reload : Bool) (past : Var → Past) (v : Var) : Past :=
  if t.loses t' v then (past v).lose (t.sideOf v) (reload || t.levelOf v == t.level) else past v

/-- A variable loses its value when it is on the trail before and not after. -/
theorem loses_iff (hv : t.Valid) (hv' : t'.Valid) :
    t.loses t' v = true ↔ (∃ l ∈ t, l.var = v) ∧ ∀ m ∈ t', m.var ≠ v := by
  have hunset : ∀ {t : Trail}, t.Valid →
      ((t.cellOf v).value.isUnset = true ↔ ∀ m ∈ t, m.var ≠ v) := by
    intro t hv
    have hiff := isUnset_iff (t := t) (l := v.lit false)
    rw [show (v.lit false).var = v from rfl] at hiff
    rw [hiff]
    constructor
    · rintro hu m hm rfl
      rcases Lit.eq_or_eq_neg (l := m.var.lit false) (m := m) rfl with he | he
      · exact ((hv.truth_unset _).1 hu).1 (he ▸ hm)
      · exact ((hv.truth_unset _).1 hu).2 (he ▸ hm)
    · exact fun hno => (hv.truth_unset _).2 ⟨fun hm => hno _ hm rfl, fun hm => hno _ hm rfl⟩
  rw [loses, Bool.and_eq_true, Bool.not_eq_true', ← Bool.not_eq_true, hunset hv, hunset hv']
  push Not
  rfl

/-- The side of a variable is that of its literal on the trail. -/
theorem sideOf_eq (hv : t.Valid) {l : Lit} (hl : l ∈ t) : t.sideOf l.var = l.negated :=
  Truth.eq_no_of_ofSide ((hv.truth_yes l).2 hl)

/-- Where every value stays, nothing happens. -/
theorem Grows.pasts (h : t.Grows t') (reload : Bool) : t.pasts t' reload past = past := by
  funext v
  rw [Trail.pasts, if_neg]
  rw [loses, Bool.and_eq_true, Bool.not_eq_true']
  rintro ⟨hset, hunset⟩
  rw [h.isUnset hunset] at hset
  cases hset

/-- The entries of the list of what was taken back. -/
theorem mem_undone {b : Nat} {n : Nat} {l : Lit} (h : (n, l) ∈ (t.rewind b).1) :
    l ∈ t ∧ n = t.levelOf l.var := by
  rw [undone_eq_map, List.mem_map] at h
  obtain ⟨m, hm, heq⟩ := h
  obtain ⟨rfl, rfl⟩ := Prod.mk.inj heq
  exact ⟨List.mem_of_mem_drop (List.mem_reverse.1 hm), rfl⟩

/-- Rewinding takes their values from the variables that it takes off the trail. -/
theorem loses_rewind (hv : t.Valid) {b : Nat} :
    t.loses (t.rewind b).2 v = true ↔ v ∈ (t.rewind b).1.map fun p => p.2.var := by
  have hlist : (t.rewind b).1.map (fun p => p.2.var) =
      ((t.lits.toList.drop (t.levelEnd b)).reverse).map Lit.var := by
    rw [← undone_rewind, List.map_map]
    rfl
  have hsplit : t.lits.toList = t.lits.toList.take (t.levelEnd b) ++
      t.lits.toList.drop (t.levelEnd b) := (List.take_append_drop _ _).symm
  rw [loses_iff hv (valid_rewind hv b), hlist, List.map_reverse, List.mem_reverse, List.mem_map]
  constructor
  · rintro ⟨⟨l, hl, rfl⟩, hno⟩
    rw [mem_def, hsplit] at hl
    refine ⟨l, (List.mem_append.1 hl).resolve_left fun htake => hno l ?_ rfl, rfl⟩
    rwa [mem_def, lits_rewind]
  · rintro ⟨l, hl, rfl⟩
    refine ⟨⟨l, List.mem_of_mem_drop hl, rfl⟩, fun m hm heq => ?_⟩
    exact var_not_mem_drop hv hm (heq ▸ List.mem_map_of_mem hl)

/-- A trail without literals loses every value. -/
theorem loses_of_lits_eq_empty (hv : t.Valid) (hv' : t'.Valid) (h : t'.lits = #[]) :
    t.loses t' v = true ↔ v ∈ t.lits.toList.map Lit.var := by
  rw [loses_iff hv hv', List.mem_map]
  exact ⟨fun hl => hl.1, fun hl => ⟨hl, fun m hm => by rw [mem_def, h] at hm; cases hm⟩⟩

end Trail

/-! ## What the decisions recall -/

namespace Decisions

variable {d d' : Decisions} {r : DecisionSettings} {past : Var → Past} {t : Trail}

/-- The sides that the decisions know of are those that the settings ask for. -/
structure Recalls (d : Decisions) (r : DecisionSettings) (past : Var → Past) : Prop where
  settings : d.settings = r
  sides : ∀ v c, d.choices.get? v.index = some c → c.negated = (past v).side r.phaseSaving

/-- The sides depend on the choices and the settings only. -/
theorem Recalls.congr (h : d.Recalls r past) (hchoices : d'.choices = d.choices)
    (hsettings : d'.settings = d.settings) : d'.Recalls r past :=
  ⟨hsettings.trans h.settings, fun v c hc => h.sides v c (hchoices ▸ hc)⟩

/-- Nothing is recalled at the start. -/
theorem recalls_of_empty (h : empty r = .ok d) : d.Recalls r past := by
  simp only [empty, bind_eq_ok, pure_eq_ok] at h
  obtain ⟨g, -, rfl⟩ := h
  exact ⟨rfl, by simp⟩

/-- A new variable is taken on the side with which it was added. -/
theorem recalls_of_addVar {u : Var} {negated decision : Bool}
    (h : d.addVar u negated decision = .ok d') (hr : d.Recalls r past) :
    d'.Recalls r (Function.update past u { initial := negated }) := by
  obtain ⟨base, hbase, hd'⟩ := exists_of_addVar h
  obtain ⟨hd, hsettings⟩ : d'.choices = base.choices ∧ d'.settings = base.settings := by
    rw [hd']
    split <;> exact ⟨rfl, rfl⟩
  refine ⟨(hsettings.trans hbase.settings).trans hr.settings, fun v c hc => ?_⟩
  rw [hd, hbase.choices] at hc
  split at hc
  next heq =>
      obtain rfl := Option.some.inj hc
      rw [Var.index_inj.1 heq, Function.update_self]
      cases r.phaseSaving <;> rfl
  next hne =>
      rw [Function.update_of_ne (mt Var.index_inj.2 hne)]
      exact hr.sides v c hc

/-- Taking back a value recalls it where the settings say so. -/
theorem recalls_of_takeBack {l : Lit} {top : Bool} (h : d.takeBack l top = .ok d')
    (hr : d.Recalls r past) :
    d'.Recalls r (Function.update past l.var ((past l.var).lose l.negated top)) := by
  obtain ⟨c, hc, hd'⟩ := takeBack_eq_ok.1 h
  rw [hr.settings] at hd'
  obtain ⟨hd, hsettings⟩ : d'.choices = d.choices.insert l.var.index
      (c.after (r.phaseSaving.remembers top) l) ∧ d'.settings = d.settings := by
    rw [hd']
    split <;> exact ⟨rfl, rfl⟩
  refine ⟨hsettings.trans hr.settings, fun v c' hc' => ?_⟩
  rw [hd, SparseTable.get?_insert] at hc'
  split at hc'
  next heq =>
      obtain rfl := Option.some.inj hc'
      rw [Var.index_inj.1 heq, Function.update_self, Past.side_lose, Choice.after, hr.sides _ c hc]
  next hne =>
      rw [Function.update_of_ne (mt Var.index_inj.2 hne)]
      exact hr.sides v c' hc'

/-- Taking back a list of values, where side and level depend on the variable only. -/
theorem recalls_of_takeBacks {α : Type} {g : α → Lit} {top : α → Bool} {as : List α}
    (side fromTop : Var → Bool)
    (hside : ∀ a ∈ as, (g a).negated = side (g a).var ∧ top a = fromTop (g a).var)
    (h : as.foldlM (fun (d : Decisions) a => d.takeBack (g a) (top a)) d = .ok d')
    (hr : d.Recalls r past) :
    d'.Recalls r fun v => if v ∈ as.map fun a => (g a).var then (past v).lose (side v) (fromTop v)
      else past v := by
  induction as generalizing d past with
  | nil =>
      rw [List.foldlM_nil, pure_eq_ok] at h
      subst h
      simpa using hr
  | cons a as ih =>
      rw [List.foldlM_cons, bind_eq_ok] at h
      obtain ⟨d₁, h₁, h⟩ := h
      obtain ⟨hneg, htop⟩ := hside a List.mem_cons_self
      have hd' := ih (fun b hb => hside b (List.mem_cons_of_mem a hb)) h (recalls_of_takeBack h₁ hr)
      refine ⟨hd'.settings, fun v c hc => ?_⟩
      rw [hd'.sides v c hc, List.map_cons]
      by_cases hva : v = (g a).var
      · -- the first loss decides, a second one of the same value adds nothing
        subst hva
        rw [Function.update_self, if_pos List.mem_cons_self, hneg, htop, Past.lose_lose, ite_self]
      · rw [Function.update_of_ne hva]
        simp only [List.mem_cons, hva, false_or]

/-- A bump changes activities only. -/
theorem same_of_bump {u : Var} (h : d.bump u = .ok d') :
    d'.choices = d.choices ∧ d'.settings = d.settings := by
  obtain ⟨a, increment, -, rfl⟩ := exists_of_bump h
  generalize d.raise u (a + d.increment) = activities
  exact ⟨rfl, rfl⟩

/-- Bumps change no side. -/
theorem recalls_of_bumps {vars : List Var} (h : vars.foldlM bump d = .ok d')
    (hr : d.Recalls r past) : d'.Recalls r past :=
  foldlM_ok (fun _ d => d.Recalls r past)
    (fun _ _ _ _ hr h => hr.congr (same_of_bump h).1 (same_of_bump h).2) hr h

/-- Making the queue anew changes no side. -/
theorem recalls_of_rebuild (h : d.rebuild t = .ok d') (hr : d.Recalls r past) :
    d'.Recalls r past := by
  obtain ⟨vars, rfl, -⟩ := exists_of_rebuild h
  exact hr.congr rfl rfl

/-- The variables that are left keep their sides. -/
theorem recalls_of_truncateVars {k : Nat} (h : d.truncateVars k t = .ok d')
    (hr : d.Recalls r past) : d'.Recalls r past := by
  refine recalls_of_rebuild h ⟨hr.settings, fun v c hc => ?_⟩
  rw [SparseTable.get?_truncate] at hc
  split at hc
  next => exact hr.sides v c hc
  next => cases hc

/-- Going back to a lower level. -/
theorem recalls_of_rewind {b : Nat} (hv : t.Valid)
    (h : (t.rewind b).1.foldlM (fun (d : Decisions) p => d.takeBack p.2 (p.1 = t.level)) d =
      .ok d') (hr : d.Recalls r past) : d'.Recalls r (t.pasts (t.rewind b).2 false past) := by
  have hd := recalls_of_takeBacks t.sideOf (fun v => t.levelOf v == t.level)
    (fun p hp => ?_) h hr
  · convert hd using 2 with v
    rw [Trail.pasts, Bool.false_or]
    simp only [Trail.loses_rewind hv]
  · obtain ⟨hl, hn⟩ := Trail.mem_undone hp
    exact ⟨(Trail.sideOf_eq hv hl).symm, by rw [hn]; rfl⟩

/-- Going back to a snapshot. -/
theorem recalls_of_rewindAll {t' : Trail} (hv : t.Valid) (hv' : t'.Valid) (ht' : t'.lits = #[])
    (h : t.rewindAll.1.foldlM (fun (d : Decisions) l => d.takeBack l true) d = .ok d')
    (hr : d.Recalls r past) : d'.Recalls r (t.pasts t' true past) := by
  have hd := recalls_of_takeBacks (g := id) t.sideOf (fun _ => true)
    (fun l hl => ⟨(Trail.sideOf_eq hv hl).symm, rfl⟩) h hr
  convert hd using 2 with v
  rw [Trail.pasts, Bool.true_or]
  simp only [Trail.loses_of_lits_eq_empty hv hv' ht']
  rfl

end Decisions

end CardSat
