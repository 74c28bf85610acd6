import CardSat.Proofs.CnfPlus.SelfCheck
import CardSat.Proofs.Engine.Passages
import CardSat.Proofs.Engine.Seeds
import CardSat.Proofs.Solver
import Mathlib

set_option autoImplicit false

/-! # What any receiver is asked for

`calls` lists what a receiver is asked when the statements of a text are passed on: before a
statement, the variables of its ids that were not made before, then the statement as a demand on the
literals of its ids. `receive_eq_ok_iff` says that a text is received exactly when these calls are
accepted one after another (`Performs`), and nothing else is asked.

The table that is given back is that of `numbering`: if a receiver never makes a variable twice
(`Receiver.Distinguishes`), the `i`-th variable has the id `i`, whatever variables there were
before.

## Receivers that distinguish their variables

A solver is one (`solver_distinguishes`): its variables are numbered by their count, which a new
variable raises and no constraint changes. A record of calls that begins with some variables is
another (`record_distinguishes`), and it shows what the condition leaves open: the first id of a
text need not become the first variable.

The strict check of the header is part of the statement. It compares the declared numbers with the
ids and statements that were read, and refuses the text after the calls have been made
(`refused_iff_of_receive`).
-/

namespace CardSat

/-- Passes a demand on to a receiver. -/
def Demand.make {σ : Type} [Receiver σ] (s : σ) : Demand → Checked (Bool × σ)
  | .clause lits => Receiver.addClause s lits
  | .atMost lits bound => Receiver.addAtMost s lits bound
  | .atLeast lits bound => Receiver.addAtLeast s lits bound
  | .exactly lits bound => Receiver.addExactly s lits bound

/-- A receiver makes each variable only once. -/
structure Receiver.Distinguishes {σ : Type} [Receiver σ] (known : σ → Var → Prop) : Prop where
  newVar : ∀ {s s' : σ} {v : Var} {negated decision : Bool},
    Receiver.newVar s negated decision = .ok (v, s') →
      ¬ known s v ∧ known s' v ∧ ∀ u, known s u → known s' u
  addClause : ∀ {s s' : σ} {lits : List Lit} {b : Bool},
    Receiver.addClause s lits = .ok (b, s') → ∀ u, known s u → known s' u
  addAtMost : ∀ {s s' : σ} {lits : List Lit} {bound : Nat} {b : Bool},
    Receiver.addAtMost s lits bound = .ok (b, s') → ∀ u, known s u → known s' u

namespace CnfPlus

/-! ## Calls -/

/-- Something a receiver is asked, with the variable it answers with. -/
inductive Ask where
  | newVar (v : Var)
  | add (d : Demand)

/-- The variables that are made. -/
def newVars (asks : List Ask) : List Var := asks.filterMap fun
  | .newVar v => some v
  | .add _ => none

/-- The demands that are made. -/
def demands (asks : List Ask) : List Demand := asks.filterMap fun
  | .newVar _ => none
  | .add d => some d

section

variable {v : Var} {d : Demand} {xs ys rest : List Ask}

@[simp] theorem newVars_nil : newVars [] = [] := rfl

@[simp] theorem newVars_cons_newVar : newVars (.newVar v :: rest) = v :: newVars rest := rfl

@[simp] theorem newVars_cons_add : newVars (.add d :: rest) = newVars rest := rfl

@[simp] theorem newVars_append : newVars (xs ++ ys) = newVars xs ++ newVars ys :=
  List.filterMap_append

@[simp] theorem newVars_map_newVar (vs : List Var) : newVars (vs.map .newVar) = vs := by
  induction vs with
  | nil => rfl
  | cons v vs ih => rw [List.map_cons, newVars_cons_newVar, ih]

@[simp] theorem demands_cons_add : demands (.add d :: rest) = d :: demands rest := rfl

@[simp] theorem demands_append : demands (xs ++ ys) = demands xs ++ demands ys :=
  List.filterMap_append

@[simp] theorem demands_map_newVar (vs : List Var) : demands (vs.map .newVar) = [] := by
  induction vs with
  | nil => rfl
  | cons v vs ih => exact ih

end

section

variable {σ : Type} [Receiver σ] {s s' s'' : σ}

/-- A receiver accepts some calls, in order. New variables may be decided, and are tried with
true first. -/
inductive Performs : σ → List Ask → σ → Prop
  | nil (s : σ) : Performs s [] s
  | newVar {s s₁ s' : σ} {v : Var} {rest : List Ask}
      (h : Receiver.newVar s false true = .ok (v, s₁)) (hrest : Performs s₁ rest s') :
      Performs s (.newVar v :: rest) s'
  | add {s s₁ s' : σ} {d : Demand} {b : Bool} {rest : List Ask}
      (h : d.make s = .ok (b, s₁)) (hrest : Performs s₁ rest s') :
      Performs s (.add d :: rest) s'

theorem performs_append {xs ys : List Ask} :
    Performs s (xs ++ ys) s'' ↔ ∃ s', Performs s xs s' ∧ Performs s' ys s'' := by
  constructor
  · intro h
    induction xs generalizing s with
    | nil => exact ⟨s, .nil s, h⟩
    | cons x xs ih =>
      cases h with
      | newVar h hrest =>
        obtain ⟨s', hxs, hys⟩ := ih hrest
        exact ⟨s', .newVar h hxs, hys⟩
      | add h hrest =>
        obtain ⟨s', hxs, hys⟩ := ih hrest
        exact ⟨s', .add h hxs, hys⟩
  · rintro ⟨s', hxs, hys⟩
    induction hxs with
    | nil => exact hys
    | newVar h _ ih => exact .newVar h (ih hys)
    | add h _ ih => exact .add h (ih hys)

theorem performs_newVar {v : Var} {rest : List Ask} :
    Performs s (.newVar v :: rest) s' ↔
      ∃ s₁, Receiver.newVar s false true = .ok (v, s₁) ∧ Performs s₁ rest s' :=
  ⟨fun h => by cases h with | newVar h hrest => exact ⟨_, h, hrest⟩,
    fun ⟨_, h, hrest⟩ => .newVar h hrest⟩

theorem performs_add {d : Demand} : Performs s [.add d] s' ↔ ∃ b, d.make s = .ok (b, s') := by
  constructor
  · intro h
    cases h with
    | add h hrest =>
      cases hrest
      exact ⟨_, h⟩
  · exact fun ⟨_, h⟩ => .add h (.nil s')

theorem known_of_make {known : σ → Var → Prop} (hd : Receiver.Distinguishes known) {d : Demand}
    {b : Bool} (h : d.make s = .ok (b, s')) : ∀ u, known s u → known s' u := by
  have hlower : ∀ {s s' : σ} {lits : List Lit} {bound : Nat} {b : Bool},
      Receiver.addAtLeast s lits bound = .ok (b, s') → ∀ u, known s u → known s' u := by
    intro s s' lits bound b h
    rw [Receiver.addAtLeast] at h
    split at h
    · exact hd.addClause h
    · exact hd.addAtMost h
  cases d with
  | clause lits => exact hd.addClause h
  | atMost lits bound => exact hd.addAtMost h
  | atLeast lits bound => exact hlower h
  | exactly lits bound =>
    rcases Receiver.addExactly_eq_ok.1 h with ⟨s₁, hupper, h⟩ | ⟨hupper, -⟩
    · exact fun u hu => hlower h u (hd.addAtMost hupper u hu)
    · exact hd.addAtMost hupper

/-- The variables that are made were not there before, and differ. -/
theorem Performs.fresh {known : σ → Var → Prop} (hd : Receiver.Distinguishes known)
    {asks : List Ask} (h : Performs s asks s') :
    (newVars asks).Nodup ∧ (∀ v ∈ newVars asks, ¬ known s v) ∧
      ∀ u, (known s u ∨ u ∈ newVars asks) → known s' u := by
  induction h with
  | nil s => simp
  | newVar hnew _ ih =>
    obtain ⟨hnodup, hunknown, hafter⟩ := ih
    obtain ⟨hv, hv', hmono⟩ := hd.newVar hnew
    rw [newVars_cons_newVar, List.nodup_cons, List.forall_mem_cons]
    refine ⟨⟨fun hmem => hunknown _ hmem hv', hnodup⟩,
      ⟨hv, fun v hmem hs => hunknown v hmem (hmono v hs)⟩, fun u hu => hafter u ?_⟩
    rcases hu with hu | hu
    · exact .inl (hmono u hu)
    · rcases List.mem_cons.1 hu with rfl | hu
      · exact .inl hv'
      · exact .inr hu
  | add hmake _ ih =>
    obtain ⟨hnodup, hunknown, hafter⟩ := ih
    have hmono := known_of_make hd hmake
    rw [newVars_cons_add]
    exact ⟨hnodup, fun v hmem hs => hunknown v hmem (hmono v hs),
      fun u hu => hafter u (hu.imp (hmono u) id)⟩

end

/-! ## Numbering variables in order -/

namespace Numbering

/-- Gives the next ids to some variables, in order. -/
def pushAll (m : Numbering) (vs : List Var) : Numbering := vs.foldl push m

theorem pushAll_append (m : Numbering) (us vs : List Var) :
    m.pushAll (us ++ vs) = (m.pushAll us).pushAll vs := List.foldl_append

theorem vars_pushAll (m : Numbering) (vs : List Var) :
    (m.pushAll vs).vars.toList = m.vars.toList ++ vs := by
  induction vs generalizing m with
  | nil => simp [pushAll]
  | cons v vs ih =>
    rw [pushAll, List.foldl_cons, ← pushAll, ih, push, Array.toList_push, List.append_assoc,
      List.singleton_append]

theorem size_pushAll (m : Numbering) (vs : List Var) :
    (m.pushAll vs).vars.size = m.vars.size + vs.length := by
  simpa using congrArg List.length (vars_pushAll m vs)

theorem prefix_pushAll (m : Numbering) (vs : List Var) :
    m.vars.toList <+: (m.pushAll vs).vars.toList := by
  rw [vars_pushAll]
  exact List.prefix_append _ _

theorem Exact.pushAll {m : Numbering} {vs : List Var} (h : m.Exact)
    (hvs : (m.vars.toList ++ vs).Nodup) : (m.pushAll vs).Exact := by
  induction vs generalizing m with
  | nil => exact h
  | cons v vs ih =>
    refine ih (h.push fun hmem => ?_) ?_
    · exact (List.nodup_append.1 hvs).2.2 v hmem v (by simp) rfl
    · rwa [Numbering.push, Array.toList_push, List.append_assoc, List.singleton_append]

end Numbering

/-! ## The calls for a text -/

/-- The greatest id of a list, without its sign. -/
def topId (ids : List Int) : Nat := ids.foldr (fun id n => max id.natAbs n) 0

theorem natAbs_le_topId {ids : List Int} {id : Int} (h : id ∈ ids) : id.natAbs ≤ topId ids := by
  induction ids with
  | nil => exact absurd h List.not_mem_nil
  | cons a ids ih =>
    rw [topId, List.foldr_cons, ← topId]
    rcases List.mem_cons.1 h with rfl | h
    · exact Nat.le_max_left _ _
    · exact Nat.le_trans (ih h) (Nat.le_max_right _ _)

/-- The greatest id of some statements, without its sign. -/
def largest (sts : List Statement) : Nat := sts.foldr (fun st n => max (topId st.ids) n) 0

/-- What is asked for some statements when `n` ids have variables: the variables that an id of a
statement needs, taken from `vs`, and then the statement with the literals `f`. -/
def calls (f : Int → Lit) : (n : Nat) → (vs : List Var) → List Statement → List Ask
  | _, _, [] => []
  | n, vs, st :: rest =>
    (vs.take (topId st.ids - n)).map .newVar ++ .add (st.demand f) ::
      calls f (max n (topId st.ids)) (vs.drop (topId st.ids - n)) rest

section

variable {f : Int → Lit} {n : Nat} {vs : List Var} {sts : List Statement}

theorem largest_cons (st : Statement) (sts : List Statement) :
    largest (st :: sts) = max (topId st.ids) (largest sts) := rfl

theorem demands_calls : demands (calls f n vs sts) = sts.map (Statement.demand f) := by
  induction sts generalizing n vs with
  | nil => rfl
  | cons st sts ih =>
    rw [calls, demands_append, demands_map_newVar, List.nil_append, demands_cons_add, ih,
      List.map_cons]

theorem newVars_calls (h : vs.length = largest sts - n) : newVars (calls f n vs sts) = vs := by
  induction sts generalizing n vs with
  | nil =>
    obtain rfl : vs = [] := List.length_eq_zero_iff.1 (by simpa [largest] using h)
    rfl
  | cons st sts ih =>
    rw [largest_cons] at h
    have hrest : (vs.drop (topId st.ids - n)).length = largest sts - max n (topId st.ids) := by
      rw [List.length_drop]
      omega
    rw [calls, newVars_append, newVars_map_newVar, newVars_cons_add, ih hrest,
      List.take_append_drop]

/-- When a statement is added, every id of it has got its variable. -/
theorem le_of_calls_eq (h : vs.length = largest sts - n) {before after : List Ask} {d : Demand}
    (hcalls : calls f n vs sts = before ++ .add d :: after) :
    ∃ st ∈ sts, d = st.demand f ∧ ∀ id ∈ st.ids, id.natAbs ≤ n + (newVars before).length := by
  induction sts generalizing n vs before with
  | nil => simp [calls] at hcalls
  | cons st sts ih =>
    rw [largest_cons] at h
    rw [calls] at hcalls
    -- the demand is the one of this statement, or comes later
    rcases List.append_eq_append_iff.1 hcalls with ⟨more, hbefore, hmore⟩ | ⟨more, hfirst, hmore⟩
    · cases more with
      | nil =>
        obtain ⟨hd, -⟩ := List.cons.inj hmore
        refine ⟨st, by simp, (Ask.add.inj hd).symm, fun id hid => ?_⟩
        have := natAbs_le_topId hid
        rw [hbefore, List.append_nil, newVars_map_newVar, List.length_take]
        omega
      | cons a more =>
        obtain ⟨rfl, hlater⟩ := List.cons.inj hmore
        have hrest : (vs.drop (topId st.ids - n)).length =
            largest sts - max n (topId st.ids) := by
          rw [List.length_drop]
          omega
        obtain ⟨st', hst', hd, hle⟩ := ih hrest hlater
        refine ⟨st', List.mem_cons_of_mem _ hst', hd, fun id hid => Nat.le_trans (hle id hid) ?_⟩
        rw [hbefore, newVars_append, newVars_map_newVar, newVars_cons_add, List.length_append,
          List.length_take]
        omega
    · -- among the new variables there is no demand
      cases more with
      | nil =>
        obtain ⟨hd, -⟩ := List.cons.inj hmore
        refine ⟨st, by simp, Ask.add.inj hd, fun id hid => ?_⟩
        have := natAbs_le_topId hid
        have hlength := congrArg (fun asks => (newVars asks).length) hfirst
        simp only [newVars_map_newVar, List.append_nil, List.length_take] at hlength
        omega
      | cons a more =>
        obtain ⟨rfl, -⟩ := List.cons.inj hmore
        have : d ∈ demands ((vs.take (topId st.ids - n)).map .newVar) := by
          rw [hfirst, demands_append, demands_cons_add]
          simp
        rw [demands_map_newVar] at this
        exact absurd this List.not_mem_nil

end

/-! ## What is passed on -/

namespace Numbering

variable {σ : Type} [Receiver σ] {m m' : Numbering} {s s' : σ} {n : Nat}

theorem exists_append_of_le {vs : List Var} (h : n ≤ vs.length) :
    ∃ us ws, us.length = n ∧ vs = us ++ ws :=
  ⟨vs.take n, vs.drop n, List.length_take_of_le h, (List.take_append_drop n vs).symm⟩

theorem extend_eq_ok_iff : extend n m s = .ok (m', s') ↔
    ∃ vs, vs.length = n ∧ m' = m.pushAll vs ∧ Performs s (vs.map .newVar) s' := by
  induction n generalizing m s with
  | zero =>
    rw [extend, pure_eq_ok, Prod.mk.injEq]
    constructor
    · rintro ⟨rfl, rfl⟩
      exact ⟨[], rfl, rfl, .nil s⟩
    · rintro ⟨vs, hlength, rfl, h⟩
      obtain rfl := List.length_eq_zero_iff.1 hlength
      cases h
      exact ⟨rfl, rfl⟩
  | succ n ih =>
    rw [extend, bind_eq_ok]
    constructor
    · rintro ⟨⟨v, s₁⟩, hnew, h⟩
      obtain ⟨vs, rfl, rfl, hrest⟩ := ih.1 h
      exact ⟨v :: vs, rfl, rfl, .newVar hnew hrest⟩
    · rintro ⟨vs, hlength, rfl, h⟩
      cases vs with
      | nil => cases hlength
      | cons v vs =>
        obtain ⟨s₁, hnew, hrest⟩ := performs_newVar.1 h
        exact ⟨(v, s₁), hnew, ih.2 ⟨vs, Nat.succ.inj hlength, rfl, hrest⟩⟩

theorem toLit_pushAll {ids : List Int} (h : m.Covers ids) (vs : List Var) :
    ∀ id ∈ ids, (m.pushAll vs).toLit id = m.toLit id :=
  fun id hid => (toLit_of_covers h (prefix_pushAll m vs) id hid).symm

theorem lit_eq_ok_iff {id : Int} (hid : IsId id) {l : Lit} : m.lit s id = .ok (l, m', s') ↔
    ∃ vs, vs.length = id.natAbs - m.vars.size ∧ m' = m.pushAll vs ∧ l = m'.toLit id ∧
      Performs s (vs.map .newVar) s' := by
  have hpos := Int.natAbs_pos.2 hid.ne_zero
  rw [lit, bind_eq_ok]
  constructor
  · rintro ⟨⟨m₁, s₁⟩, hextend, h⟩
    obtain ⟨v, hv, h⟩ := bind_eq_ok.1 h
    obtain ⟨rfl, rfl, rfl⟩ := by simpa only [pure_eq_ok, Prod.mk.injEq] using h
    obtain ⟨vs, hlength, rfl, hperforms⟩ := extend_eq_ok_iff.1 hextend
    refine ⟨vs, hlength, rfl, ?_, hperforms⟩
    rw [toLit, Array.getD_eq_getD_getElem?, fetch_eq_ok.1 hv, Option.getD_some]
  · rintro ⟨vs, hlength, rfl, rfl, hperforms⟩
    refine ⟨_, extend_eq_ok_iff.2 ⟨vs, hlength, rfl, hperforms⟩, ?_⟩
    have hlt : id.natAbs - 1 < (m.pushAll vs).vars.size := by
      rw [size_pushAll]
      omega
    have hget := Array.getElem?_eq_getElem hlt
    rw [bind_eq_ok]
    refine ⟨_, fetch_eq_ok.2 hget, pure_eq_ok.2 ?_⟩
    rw [toLit, Array.getD_eq_getD_getElem?, hget, Option.getD_some]

theorem lits_eq_ok_iff {ids : List Int} (hids : ∀ id ∈ ids, IsId id) {done : Array Lit}
    {ls : List Lit} : lits ids done m s = .ok (ls, m', s') ↔
      ∃ vs, vs.length = topId ids - m.vars.size ∧ m' = m.pushAll vs ∧
        ls = done.toList ++ ids.map m'.toLit ∧ Performs s (vs.map .newVar) s' := by
  induction ids generalizing done m s with
  | nil =>
    rw [lits, pure_eq_ok, Prod.mk.injEq, Prod.mk.injEq]
    constructor
    · rintro ⟨rfl, rfl, rfl⟩
      exact ⟨[], by simp [topId], rfl, by simp, .nil s⟩
    · rintro ⟨vs, hlength, rfl, rfl, h⟩
      obtain rfl := List.length_eq_zero_iff.1 (show vs.length = 0 by simpa [topId] using hlength)
      cases h
      exact ⟨by simp, rfl, rfl⟩
  | cons id rest ih =>
    obtain ⟨hid, hrest⟩ := List.forall_mem_cons.1 hids
    have htop : topId (id :: rest) = max id.natAbs (topId rest) := rfl
    -- the first literal does not change when more variables are numbered
    have hstable : ∀ {us : List Var}, us.length = id.natAbs - m.vars.size → ∀ vs,
        ((m.pushAll us).pushAll vs).toLit id = (m.pushAll us).toLit id := fun {us} hus vs => by
      have hcovers : (m.pushAll us).Covers [id] := by
        rw [Covers, List.forall_mem_singleton, size_pushAll]
        exact ⟨hid, by omega⟩
      exact toLit_pushAll hcovers vs id (by simp)
    rw [lits, bind_eq_ok]
    constructor
    · rintro ⟨⟨l, m₁, s₁⟩, hlit, h⟩
      obtain ⟨us, hus, rfl, rfl, hfirst⟩ := (lit_eq_ok_iff hid).1 hlit
      obtain ⟨vs, hvs, rfl, rfl, hlater⟩ := (ih hrest).1 h
      rw [size_pushAll] at hvs
      refine ⟨us ++ vs, ?_, (pushAll_append m us vs).symm, ?_, ?_⟩
      · rw [List.length_append]
        omega
      · rw [Array.toList_push, List.append_assoc, List.map_cons, List.singleton_append,
          hstable hus]
      · rw [List.map_append]
        exact performs_append.2 ⟨s₁, hfirst, hlater⟩
    · rintro ⟨vs, hlength, rfl, rfl, h⟩
      rw [htop] at hlength
      obtain ⟨us, ws, hus, rfl⟩ := exists_append_of_le
        (show id.natAbs - m.vars.size ≤ vs.length by omega)
      rw [List.map_append] at h
      obtain ⟨s₁, hfirst, hlater⟩ := performs_append.1 h
      refine ⟨_, (lit_eq_ok_iff hid).2 ⟨us, hus, rfl, rfl, hfirst⟩,
        (ih hrest).2 ⟨ws, ?_, pushAll_append m us ws, ?_, hlater⟩⟩
      · rw [List.length_append] at hlength
        rw [size_pushAll]
        omega
      · rw [Array.toList_push, List.append_assoc, List.map_cons, List.singleton_append,
          pushAll_append, hstable hus]

/-- A statement as a demand on literals that were found for its ids. -/
def demandOn (ls : List Lit) : Statement → Demand
  | .clause _ => .clause ls
  | .atMost _ bound => .atMost ls bound
  | .atLeast _ bound => .atLeast ls bound

theorem demandOn_map (f : Int → Lit) (st : Statement) :
    demandOn (st.ids.map f) st = st.demand f := by
  cases st <;> rfl

theorem add_eq_make (m : Numbering) (s : σ) (st : Statement) :
    m.add s st = lits st.ids #[] m s >>= fun x =>
      (demandOn x.1 st).make x.2.2 >>= fun y => pure (x.2.1, y.2) := by
  cases st <;> rfl

theorem add_eq_ok_iff {st : Statement} (hids : ∀ id ∈ st.ids, IsId id) :
    m.add s st = .ok (m', s') ↔ ∃ vs, vs.length = topId st.ids - m.vars.size ∧
      m' = m.pushAll vs ∧ Performs s (vs.map .newVar ++ [.add (st.demand m'.toLit)]) s' := by
  rw [add_eq_make, bind_eq_ok]
  constructor
  · rintro ⟨⟨ls, m₁, s₁⟩, hlits, h⟩
    obtain ⟨vs, hlength, rfl, rfl, hnew⟩ := (lits_eq_ok_iff hids).1 hlits
    obtain ⟨⟨b, s₂⟩, hadd, h⟩ := bind_eq_ok.1 h
    obtain ⟨rfl, rfl⟩ := Prod.mk.inj (pure_eq_ok.1 h)
    rw [List.nil_append, demandOn_map] at hadd
    exact ⟨vs, hlength, rfl, performs_append.2 ⟨s₁, hnew, performs_add.2 ⟨b, hadd⟩⟩⟩
  · rintro ⟨vs, hlength, rfl, h⟩
    obtain ⟨s₁, hnew, hadd⟩ := performs_append.1 h
    obtain ⟨b, hadd⟩ := performs_add.1 hadd
    refine ⟨_, (lits_eq_ok_iff hids).2 ⟨vs, hlength, rfl, rfl, hnew⟩, ?_⟩
    rw [bind_eq_ok]
    exact ⟨(b, s'), by rwa [List.nil_append, demandOn_map], rfl⟩

/-- The statements are passed on exactly when the calls for them are accepted. -/
theorem foldlM_eq_ok_iff {sts : List Statement} (hids : ∀ st ∈ sts, ∀ id ∈ st.ids, IsId id) :
    sts.foldlM (fun (m, s) st => add m s st) (m, s) = .ok (m', s') ↔
      ∃ vs, vs.length = largest sts - m.vars.size ∧ m' = m.pushAll vs ∧
        Performs s (calls m'.toLit m.vars.size vs sts) s' := by
  induction sts generalizing m s with
  | nil =>
    rw [List.foldlM_nil, pure_eq_ok, Prod.mk.injEq]
    constructor
    · rintro ⟨rfl, rfl⟩
      exact ⟨[], by simp [largest], rfl, .nil s⟩
    · rintro ⟨vs, hlength, rfl, h⟩
      obtain rfl := List.length_eq_zero_iff.1 (show vs.length = 0 by simpa [largest] using hlength)
      cases h
      exact ⟨rfl, rfl⟩
  | cons st sts ih =>
    obtain ⟨hst, hrest⟩ := List.forall_mem_cons.1 hids
    -- later variables do not change the demand of the first statement
    have hstable : ∀ {us : List Var}, us.length = topId st.ids - m.vars.size → ∀ vs,
        st.demand ((m.pushAll us).pushAll vs).toLit = st.demand (m.pushAll us).toLit :=
        fun {us} hus vs => by
      have hcovers : (m.pushAll us).Covers st.ids := fun id hid => by
        have := natAbs_le_topId hid
        rw [size_pushAll]
        exact ⟨hst id hid, by omega⟩
      exact Statement.demand_congr (toLit_pushAll hcovers vs)
    have hsize : ∀ {us : List Var}, us.length = topId st.ids - m.vars.size →
        (m.pushAll us).vars.size = max m.vars.size (topId st.ids) := fun hus => by
      rw [size_pushAll]
      omega
    rw [List.foldlM_cons, bind_eq_ok]
    constructor
    · rintro ⟨⟨m₁, s₁⟩, hadd, h⟩
      obtain ⟨us, hus, rfl, hfirst⟩ := (add_eq_ok_iff hst).1 hadd
      obtain ⟨vs, hvs, rfl, hlater⟩ := (ih hrest).1 h
      rw [hsize hus] at hvs hlater
      refine ⟨us ++ vs, ?_, (pushAll_append m us vs).symm, ?_⟩
      · rw [largest_cons, List.length_append]
        omega
      · rw [calls, List.take_left' hus, List.drop_left' hus, hstable hus, List.append_cons]
        exact performs_append.2 ⟨s₁, hfirst, hlater⟩
    · rintro ⟨vs, hlength, rfl, h⟩
      rw [largest_cons] at hlength
      obtain ⟨us, ws, hus, rfl⟩ := exists_append_of_le
        (show topId st.ids - m.vars.size ≤ vs.length by omega)
      rw [calls, List.take_left' hus, List.drop_left' hus, pushAll_append, hstable hus,
        List.append_cons] at h
      obtain ⟨s₁, hfirst, hlater⟩ := performs_append.1 h
      refine ⟨_, (add_eq_ok_iff hst).2 ⟨us, hus, rfl, hfirst⟩, (ih hrest).2 ⟨ws, ?_, ?_, ?_⟩⟩
      · rw [List.length_append] at hlength
        rw [hsize hus]
        omega
      · exact pushAll_append m us ws
      · rw [hsize hus, pushAll_append]
        exact hlater

end Numbering

/-! ## The strict check -/

/-- The numbers of variables and constraints that the header of a text declares. -/
def declared (bytes : ByteArray) : Option (Nat × Nat) :=
  (String.fromUTF8? bytes).bind fun text => (readHeader text.toList).toOption.map fun x =>
    (x.1, x.2.1)

/-- The number of distinct ids of some statements, without their signs. -/
def distinctIds (sts : List Statement) : Nat :=
  ((sts.flatMap Statement.ids).map Int.natAbs).toFinset.card

theorem variablesUsed_eq (sts : List Statement) : variablesUsed sts = distinctIds sts := by
  have hnodup : (((sts.flatMap Statement.ids).map Int.natAbs).mergeSort.eraseReps).Nodup :=
    (pairwise_eraseReps (fun a b hab hba => Nat.le_antisymm hab hba)
      (List.pairwise_mergeSort' (· ≤ ·) _)).imp And.right
  rw [variablesUsed, distinctIds, ← List.toFinset_card_of_nodup hnodup]
  congr 1
  ext n
  rw [List.mem_toFinset, List.mem_toFinset, mem_eraseReps, List.mem_mergeSort]

theorem checkHeader_eq_ok_iff {vars count : Nat} {sts : List Statement} :
    checkHeader vars count sts = .ok () ↔ count = sts.length ∧ distinctIds sts ≤ vars := by
  rw [checkHeader, variablesUsed_eq]
  by_cases hcount : count = sts.length
  · by_cases hvars : vars < distinctIds sts
    · simp [hcount, hvars, throw, throwThe, MonadExceptOf.throw]
    · simp [hcount, hvars, pure, Except.pure]
      omega
  · simp [hcount, bind, Except.bind, throw, throwThe, MonadExceptOf.throw]

/-- The statements do not depend on the check, and a strict reading has no error when the text
is read without one and keeps to its header. -/
theorem read_strict (s : List Char) : (read true s).statements = (read false s).statements ∧
    ((read true s).outcome = .ok () ↔ (read false s).outcome = .ok () ∧
      ∃ vars count r, readHeader s = .ok (vars, count, r) ∧
        count = (read false s).statements.length ∧
        distinctIds (read false s).statements ≤ vars) := by
  unfold read
  cases hheader : readHeader s with
  | error e => simp
  | ok x =>
    obtain ⟨vars, count, r⟩ := x
    cases hread : readStatements #[] r with
    | mk done outcome =>
      cases outcome with
      | error e => simp [hread]
      | ok u => simp [hread, checkHeader_eq_ok_iff]

theorem readBytes_strict (bytes : ByteArray) :
    (readBytes true bytes).statements = (readBytes false bytes).statements ∧
    ((readBytes true bytes).outcome = .ok () ↔ (readBytes false bytes).outcome = .ok () ∧
      ∃ vars count, declared bytes = some (vars, count) ∧
        count = (readBytes false bytes).statements.length ∧
        distinctIds (readBytes false bytes).statements ≤ vars) := by
  unfold readBytes declared
  cases String.fromUTF8? bytes with
  | none => simp
  | some text =>
    obtain ⟨hsame, hiff⟩ := read_strict text.toList
    refine ⟨hsame, hiff.trans (and_congr_right fun _ => ?_)⟩
    cases hheader : readHeader text.toList with
    | error e => simp [Except.toOption, hheader]
    | ok x =>
      obtain ⟨vars, count, r⟩ := x
      simp [Except.toOption, hheader]

theorem exists_declared {strict : Bool} {bytes : ByteArray}
    (h : (readBytes strict bytes).outcome = .ok ()) :
    ∃ vars count, declared bytes = some (vars, count) := by
  unfold readBytes at h
  unfold declared
  cases htext : String.fromUTF8? bytes with
  | none => simp [htext] at h
  | some text =>
    simp only [htext, read] at h
    cases hheader : readHeader text.toList with
    | error e => simp [hheader] at h
    | ok x => exact ⟨x.1, x.2.1, by simp [hheader, Except.toOption]⟩

/-! ## Receiving a text -/

/-- The numbering of some variables by the ids from one on. -/
def numbering (vars : List Var) : Numbering := ({} : Numbering).pushAll vars

theorem toLit_numbering {vars : List Var} {k : Nat} {v : Var} {id : Int} (hv : vars[k]? = some v)
    (hid : id.natAbs = k + 1) : (numbering vars).toLit id = v.lit (id < 0) := by
  have hget : (numbering vars).vars[id.natAbs - 1]? = some v := by
    rw [hid, Nat.add_sub_cancel, ← Array.getElem?_toList, numbering, Numbering.vars_pushAll]
    simpa using hv
  rw [Numbering.toLit, Array.getD_eq_getD_getElem?, hget, Option.getD_some]

theorem ids_numbering {vars : List Var} (h : vars.Nodup) {i : Nat} {id : Int} :
    (numbering vars).ids.get? i = some id ↔ ∃ k : Nat, vars[k]? = some ⟨i⟩ ∧ id = k + 1 := by
  have hempty : ({} : Numbering).Exact := fun i id => by simp
  have hexact : (numbering vars).Exact := hempty.pushAll (by simpa using h)
  rw [hexact i id]
  refine exists_congr fun k => and_congr_left fun _ => ?_
  rw [← Array.getElem?_toList, numbering, Numbering.vars_pushAll]
  simp

/-- What is asked for the statements of a text: the calls for the variables `vars`. -/
def asks (vars : List Var) (sts : List Statement) : List Ask :=
  calls (numbering vars).toLit 0 vars sts

/-- How a text is received, from a state in which some variables are known. -/
structure ReceivedInOrder {σ : Type} [Receiver σ] (known : σ → Var → Prop) (strict : Bool)
    (bytes : ByteArray) (s : σ) : Prop where
  /-- The text is received exactly when the calls are accepted in order; nothing else is asked,
  and what the receiver answers to a constraint does not matter. -/
  receives_iff : ∀ (out : Except ReadError IdTable) (s' : σ),
    receive (readBytes strict bytes) s = .ok (out, s') ↔
      ∃ vars : List Var, vars.length = largest (readBytes strict bytes).statements ∧
        Performs s (asks vars (readBytes strict bytes).statements) s' ∧
        out = (readBytes strict bytes).outcome.map fun _ => (numbering vars).ids
  /-- As many variables are made as the greatest id says. -/
  newVars_eq : ∀ vars : List Var, vars.length = largest (readBytes strict bytes).statements →
    newVars (asks vars (readBytes strict bytes).statements) = vars
  /-- Each statement is one call, in the order of the text, on the literals of its ids. -/
  demands_eq : ∀ vars : List Var, demands (asks vars (readBytes strict bytes).statements) =
    (readBytes strict bytes).statements.map (Statement.demand (numbering vars).toLit)
  /-- The `i`-th variable stands for the id `i`, and the sign is kept. -/
  toLit_eq : ∀ (vars : List Var) (k : Nat) (v : Var) (id : Int), vars[k]? = some v →
    id.natAbs = k + 1 → (numbering vars).toLit id = v.lit (id < 0)
  /-- A variable is made before the first statement that needs it. -/
  made_before : ∀ (vars : List Var) (before : List Ask) (d : Demand) (after : List Ask),
    vars.length = largest (readBytes strict bytes).statements →
    asks vars (readBytes strict bytes).statements = before ++ .add d :: after →
    ∀ l ∈ d.lits, l.var ∈ newVars before
  /-- The variables are new and differ, and the table lists them with the ids from one on. -/
  table : ∀ (vars : List Var) (s' : σ),
    vars.length = largest (readBytes strict bytes).statements →
    Performs s (asks vars (readBytes strict bytes).statements) s' →
    vars.Nodup ∧ (∀ v ∈ vars, ¬ known s v) ∧ ∀ (i : Nat) (id : Int),
      (numbering vars).ids.get? i = some id ↔ ∃ k : Nat, vars[k]? = some ⟨i⟩ ∧ id = k + 1
  /-- A strict reading ends in an error when any reading does, and when the header declares
  another number of constraints or fewer variables than there are. -/
  refused_iff : ∀ (out : Except ReadError IdTable) (s' : σ), strict = true →
    receive (readBytes strict bytes) s = .ok (out, s') →
    ((∃ e, out = .error e) ↔ (∃ e, (readBytes false bytes).outcome = .error e) ∨
      ∃ vars count, declared bytes = some (vars, count) ∧
        (count ≠ (readBytes strict bytes).statements.length ∨
          vars < distinctIds (readBytes strict bytes).statements))

section

variable {σ : Type} [Receiver σ] {r : Reading} {s s' : σ} {out : Except ReadError IdTable}
  {vars : List Var}

theorem receive_eq_ok_iff (hids : ∀ st ∈ r.statements, ∀ id ∈ st.ids, IsId id) :
    receive r s = .ok (out, s') ↔ ∃ vars : List Var, vars.length = largest r.statements ∧
      Performs s (asks vars r.statements) s' ∧
      out = r.outcome.map fun _ => (numbering vars).ids := by
  rw [receive, bind_eq_ok]
  constructor
  · rintro ⟨⟨m, s₁⟩, hfold, h⟩
    obtain ⟨rfl, rfl⟩ := Prod.mk.inj (pure_eq_ok.1 h)
    obtain ⟨vars, hlength, rfl, hperforms⟩ := (Numbering.foldlM_eq_ok_iff hids).1 hfold
    exact ⟨vars, hlength, hperforms, rfl⟩
  · rintro ⟨vars, hlength, hperforms, rfl⟩
    exact ⟨_, (Numbering.foldlM_eq_ok_iff hids).2 ⟨vars, hlength, rfl, hperforms⟩, rfl⟩

theorem var_mem_of_asks_eq {sts : List Statement}
    (hids : ∀ st ∈ sts, ∀ id ∈ st.ids, IsId id) (hlength : vars.length = largest sts)
    {before after : List Ask} {d : Demand} (h : asks vars sts = before ++ .add d :: after)
    {l : Lit} (hl : l ∈ d.lits) : l.var ∈ newVars before := by
  obtain ⟨st, hst, rfl, hle⟩ := le_of_calls_eq (by simpa using hlength) h
  rw [Statement.lits_demand] at hl
  obtain ⟨id, hid, rfl⟩ := List.mem_map.1 hl
  have hpos := Int.natAbs_pos.2 (hids st hst id hid).ne_zero
  have hbound := hle id hid
  -- the variables made so far are the first ones
  have hvars : newVars before ++ newVars after = vars := by
    have hall : newVars (asks vars sts) = vars := newVars_calls (by simpa using hlength)
    rwa [h, newVars_append, newVars_cons_add] at hall
  have hlt : id.natAbs - 1 < (newVars before).length := by omega
  have hget : vars[id.natAbs - 1]? = some (newVars before)[id.natAbs - 1] := by
    rw [← hvars, List.getElem?_append_left hlt, List.getElem?_eq_getElem hlt]
  rw [toLit_numbering hget (by omega)]
  exact List.getElem_mem hlt

theorem refused_iff_of_receive {bytes : ByteArray}
    (h : receive (readBytes true bytes) s = .ok (out, s')) :
    (∃ e, out = .error e) ↔ (∃ e, (readBytes false bytes).outcome = .error e) ∨
      ∃ vars count, declared bytes = some (vars, count) ∧
        (count ≠ (readBytes true bytes).statements.length ∨
          vars < distinctIds (readBytes true bytes).statements) := by
  obtain ⟨vars, -, -, rfl⟩ :=
    (receive_eq_ok_iff fun st hst => (fits_of_readBytes st hst).isId).1 h
  obtain ⟨hsame, hstrict⟩ := readBytes_strict bytes
  have hout : (∃ e, ((readBytes true bytes).outcome.map fun _ => (numbering vars).ids) =
      .error e) ↔ ¬ (readBytes true bytes).outcome = .ok () := by
    cases (readBytes true bytes).outcome <;> simp [Except.map]
  have hfalse : (∃ e, (readBytes false bytes).outcome = .error e) ↔
      ¬ (readBytes false bytes).outcome = .ok () := by
    cases (readBytes false bytes).outcome <;> simp
  rw [hout, hstrict, hsame, hfalse]
  -- a text that can be read has a header, and the counts are compared with it
  by_cases hok : (readBytes false bytes).outcome = .ok ()
  · obtain ⟨vars, count, hdeclared⟩ := exists_declared hok
    have hthis : ∀ p : Nat → Nat → Prop,
        (∃ vars count, declared bytes = some (vars, count) ∧ p vars count) ↔ p vars count :=
      fun p => by simp [hdeclared]
    simp only [hok, hthis, not_true_eq_false, true_and, false_or]
    omega
  · simp [hok]

end

/-- Every receiver that makes each variable only once receives every text in order, whatever
variables it has, and a strict reading accepts the texts that keep to their header. -/
theorem receivedInOrder_of_distinguishes {σ : Type} [Receiver σ] {known : σ → Var → Prop}
    (hd : Receiver.Distinguishes known) (strict : Bool) (bytes : ByteArray) (s : σ) :
    ReceivedInOrder known strict bytes s := by
  have hids : ∀ st ∈ (readBytes strict bytes).statements, ∀ id ∈ st.ids, IsId id :=
    fun st hst => (fits_of_readBytes st hst).isId
  have hvars : ∀ vars : List Var, vars.length = largest (readBytes strict bytes).statements →
      newVars (asks vars (readBytes strict bytes).statements) = vars :=
    fun vars hlength => newVars_calls (by simpa using hlength)
  -- each field has its own lemma; only the table depends on what the receiver distinguishes
  exact {
    receives_iff := fun _ _ => receive_eq_ok_iff hids
    newVars_eq := hvars
    demands_eq := fun _ => demands_calls
    toLit_eq := fun _ _ _ _ => toLit_numbering
    made_before := fun _ _ _ _ hlength h _ => var_mem_of_asks_eq hids hlength h
    table := fun vars s' hlength h => by
      obtain ⟨hnodup, hunknown, -⟩ := h.fresh hd
      rw [hvars vars hlength] at hnodup hunknown
      exact ⟨hnodup, hunknown, fun i id => ids_numbering hnodup⟩
    refused_iff := fun out s' hstrict h => by
      subst hstrict
      exact refused_iff_of_receive h }

/-! ## A receiver that has variables already -/

theorem record_distinguishes :
    Receiver.Distinguishes fun (r : Receiver.Record) v => v.index < r.vars where
  newVar := by
    intro r r' v negated decision h
    obtain ⟨rfl, rfl⟩ := Prod.mk.inj (Except.ok.inj h)
    exact ⟨Nat.lt_irrefl _, Nat.lt_succ_self _, fun u hu => Nat.lt_succ_of_lt hu⟩
  addClause := by
    intro r r' lits b h
    obtain ⟨-, rfl⟩ := Prod.mk.inj (Except.ok.inj h)
    exact fun _ hu => hu
  addAtMost := by
    intro r r' lits bound b h
    obtain ⟨-, rfl⟩ := Prod.mk.inj (Except.ok.inj h)
    exact fun _ hu => hu

theorem varCount_of_whileOk {s s' : Solver} {b : Bool} {step : Engine → Checked (Bool × Engine)}
    (hstep : ∀ {e e'}, step e = .ok (b, e') → e.Steps e') (h : s.whileOk step = .ok (b, s')) :
    s'.varCount = s.varCount := by
  rcases Solver.whileOk_eq_ok.1 h with ⟨-, e, he, rfl⟩ | ⟨-, -, rfl⟩
  · exact (hstep he).varCount_eq
  · rfl

/-- A solver makes each variable only once, in whatever state it is: a new variable has the next
number, and a constraint adds none. -/
theorem solver_distinguishes :
    Receiver.Distinguishes fun (s : Solver) v => v.index < s.varCount where
  newVar := by
    intro s s' v negated decision h
    obtain ⟨e, he, rfl⟩ := Solver.newVar_eq_ok.1 h
    obtain ⟨rfl, -, hcount⟩ := Engine.varCount_of_newVar he
    have hgrown : Solver.varCount { s with engine := e } = s.varCount + 1 := hcount
    rw [hgrown]
    exact ⟨Nat.lt_irrefl _, Nat.lt_succ_self _, fun u hu => Nat.lt_succ_of_lt hu⟩
  addClause := fun h _ hu => (varCount_of_whileOk Engine.steps_of_addClause h).symm ▸ hu
  addAtMost := fun h _ hu => (varCount_of_whileOk Engine.steps_of_addAtMost h).symm ▸ hu

/-- With two variables already, the ids of `sampleText` have the third and the fourth. -/
theorem receive_sampleText : ∃ ids : IdTable,
    receive (readBytes true sampleText.toByteArray) ({ vars := 2 } : Receiver.Record) =
      .ok (.ok ids, ⟨4, [.clause [⟨⟨2⟩, false⟩, ⟨⟨3⟩, true⟩],
        .atMost [⟨⟨2⟩, false⟩, ⟨⟨3⟩, false⟩] 1]⟩) := by
  rw [readBytes_sampleText]
  exact ⟨_, rfl⟩

theorem receivedInOrder_sampleText :
    (∃ ids r, receive (readBytes true sampleText.toByteArray)
      ({ vars := 2 } : Receiver.Record) = .ok (.ok ids, r)) ∧
    Receiver.Distinguishes (fun (r : Receiver.Record) v => v.index < r.vars) ∧
    ReceivedInOrder (fun (r : Receiver.Record) v => v.index < r.vars) true
      sampleText.toByteArray { vars := 2 } :=
  ⟨receive_sampleText.imp fun _ h => ⟨_, h⟩, record_distinguishes,
    receivedInOrder_of_distinguishes record_distinguishes true sampleText.toByteArray { vars := 2 }⟩

end CnfPlus

end CardSat
