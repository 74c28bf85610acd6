import CardSat.CnfPlus.Numbering
import CardSat.Proofs.CnfPlus.Reader
import CardSat.Proofs.Ledger.Since

set_option autoImplicit false

/-! # What a solver receives

Statements become demands: each id is replaced by the literal of its variable. While the statements
of a text are passed on, `Tracks` holds: the numbered variables are distinct and known to the
solver, ids and variables determine each other, and the run of the solver is one in which only
variables and demands were added.

Variables are only appended, so the literal of an id stays the same (`toLit_of_covers`). This is
what allows the demands that were made at different times to be read with one numbering, the last
one.

The lemmas follow the loops of the receiver from the inside: a variable for each new id
(`tracks_of_extend`), the literal of an id (`tracks_of_lit`), those of a statement
(`tracks_of_lits`), the demand (`tracks_of_add`), and the whole text (`tracks_of_receive`).
-/

namespace CardSat

/-- The solvers without constraints: only variables were added, and all of them may be decided. -/
inductive Solver.Fresh : Solver → Prop
  | new {settings : Settings} {s : Solver} (h : Solver.new settings = .ok s) : Fresh s
  | newVar {s s' : Solver} {v : Var} {negated : Bool} (hs : Fresh s)
      (h : s.newVar negated true = .ok (v, s')) : Fresh s'

theorem Solver.Fresh.run {rules : Rules} {s : Solver} (h : s.Fresh) : Run rules s {} := by
  induction h with
  | new h => exact .new h
  | newVar _ h ih => exact ih.call (.newVar _ true (fun _ => rfl) h)

namespace CnfPlus

/-- A statement as a demand, with a literal for every id. -/
def Statement.demand (f : Int → Lit) : Statement → Demand
  | clause ids => .clause (ids.map f)
  | atMost ids bound => .atMost (ids.map f) bound
  | atLeast ids bound => .atLeast (ids.map f) bound

theorem Statement.lits_demand (f : Int → Lit) (st : Statement) :
    (st.demand f).lits = st.ids.map f := by
  cases st <;> rfl

theorem Statement.demand_congr {f g : Int → Lit} {st : Statement}
    (h : ∀ id ∈ st.ids, f id = g id) : st.demand f = st.demand g := by
  have hmap : st.ids.map f = st.ids.map g := List.map_congr_left h
  cases st with
  | clause ids => exact congrArg Demand.clause hmap
  | atMost ids bound => exact congrArg (Demand.atMost · bound) hmap
  | atLeast ids bound => exact congrArg (Demand.atLeast · bound) hmap

namespace Numbering

/-- The literal of an id whose variable is numbered. -/
def toLit (m : Numbering) (id : Int) : Lit := (m.vars.getD (id.natAbs - 1) ⟨0⟩).lit (id < 0)

/-- The variables of some ids are numbered. -/
def Covers (m : Numbering) (ids : List Int) : Prop :=
  ∀ id ∈ ids, IsId id ∧ id.natAbs ≤ m.vars.size

variable {m m' : Numbering} {s s' : Solver} {L : Ledger} {n : Nat}

theorem Covers.mono {ids : List Int} (h : m.Covers ids) (hp : m.vars.toList <+: m'.vars.toList) :
    m'.Covers ids :=
  fun id hid => ⟨(h id hid).1, Nat.le_trans (h id hid).2 (by simpa using hp.length_le)⟩

/-- Variables that are numbered later do not change the literal of an id. -/
theorem toLit_of_covers {ids : List Int} (h : m.Covers ids)
    (hp : m.vars.toList <+: m'.vars.toList) : ∀ id ∈ ids, m.toLit id = m'.toLit id := by
  intro id hid
  obtain ⟨hisId, hle⟩ := h id hid
  have hpos : id.natAbs - 1 < m.vars.toList.length := by
    have := Int.natAbs_pos.2 hisId.ne_zero
    rw [Array.length_toList]
    omega
  have hget : m'.vars[id.natAbs - 1]? = m.vars[id.natAbs - 1]? := by
    obtain ⟨later, hlater⟩ := hp
    rw [← Array.getElem?_toList, ← Array.getElem?_toList, ← hlater,
      List.getElem?_append_left hpos]
  rw [toLit, toLit, Array.getD_eq_getD_getElem?, Array.getD_eq_getD_getElem?, hget]

/-- Gives the next id to a variable. -/
def push (m : Numbering) (v : Var) : Numbering :=
  ⟨m.vars.push v, m.ids.insert v.index (m.vars.size + 1)⟩

/-- The table lists the variables and their positions, counted from one. -/
def Exact (m : Numbering) : Prop :=
  ∀ (i : Nat) (id : Int), m.ids.get? i = some id ↔ ∃ k : Nat, m.vars[k]? = some ⟨i⟩ ∧ id = k + 1

theorem Exact.push {v : Var} (h : m.Exact) (hv : v ∉ m.vars.toList) :
    (m.push v).Exact := by
  intro i id
  rw [Numbering.push, SparseTable.get?_insert]
  split
  next hi =>
    subst hi
    constructor
    · intro hid
      exact ⟨m.vars.size, by simp, (Option.some.inj hid).symm⟩
    · rintro ⟨k, hk, rfl⟩
      rw [Array.getElem?_push] at hk
      split at hk
      next hsize => rw [hsize]
      next => exact absurd (Array.mem_toList_iff.2 (Array.mem_of_getElem? hk)) hv
  next hi =>
    -- the number of another variable is where it was
    rw [h]
    refine exists_congr fun k => and_congr_left fun _ => ?_
    rw [Array.getElem?_push]
    split
    next hsize =>
      rw [Array.getElem?_eq_none (by omega)]
      refine iff_of_false (by simp) fun heq => hi ?_
      exact (congrArg Var.index (Option.some.inj heq)).symm
    next => rfl

/-- A numbering and the solver it makes variables for. -/
structure Tracks (L : Ledger) (m : Numbering) (s : Solver) : Prop where
  run : Run { decisionVars := true, uncanceled := true } s L
  known : ∀ v ∈ m.vars.toList, v.index < s.varCount
  nodup : m.vars.toList.Nodup
  ids : ∀ (i : Nat) (id : Int),
    m.ids.get? i = some id ↔ ∃ k : Nat, m.vars[k]? = some ⟨i⟩ ∧ id = k + 1
  small : m.vars.size < 2 ^ 31

theorem tracks_of_fresh (h : s.Fresh) : Tracks {} {} s where
  run := h.run
  known := by simp
  nodup := by simp
  ids := by simp
  small := by simp

/-- Calls keep the variables. -/
theorem Tracks.call {L' : Ledger} (ht : Tracks L m s)
    (h : Call { decisionVars := true, uncanceled := true } s L s' L') : Tracks L' m s' where
  run := ht.run.call h
  known v hv :=
    Nat.lt_of_lt_of_le (ht.known v hv) (evolves_of_call (valid_of_run ht.run) h).varCount
  nodup := ht.nodup
  ids := ht.ids
  small := ht.small

/-- A variable is appended. -/
theorem Tracks.push {v : Var} (ht : Tracks L m s) (hsmall : m.vars.size + 1 < 2 ^ 31)
    (h : s.newVar false true = .ok (v, s')) :
    Tracks L ⟨m.vars.push v, m.ids.insert v.index (m.vars.size + 1)⟩ s' := by
  have hcall : Call { decisionVars := true, uncanceled := true } s L s' L :=
    .newVar false true (fun _ => rfl) h
  obtain ⟨e, he, rfl⟩ := Solver.newVar_eq_ok.1 h
  have hn := Engine.newVar_of_newVar (valid_of_run ht.run).fit he
  have hcount : Solver.varCount { s with engine := e } = s.varCount + 1 := hn.varCount
  have hv : v.index = s.varCount := congrArg Var.index hn.var
  -- the new variable has the next number, so it is none of the table
  have hfresh : v ∉ m.vars.toList := fun hmem => by
    have := ht.known v hmem
    omega
  have hids : (m.push v).Exact := Exact.push ht.ids hfresh
  refine ⟨ht.run.call hcall, fun x hx => ?_, ?_, hids, by simpa using hsmall⟩
  · rw [Array.toList_push, List.mem_append, List.mem_singleton] at hx
    rcases hx with hx | rfl
    · exact hcount ▸ Nat.lt_succ_of_lt (ht.known x hx)
    · exact hcount ▸ Nat.lt_succ_of_le (Nat.le_of_eq hv)
  · rw [Array.toList_push, List.nodup_append]
    refine ⟨ht.nodup, List.nodup_singleton v, fun a ha b hb hab => ?_⟩
    rw [hab, List.mem_singleton.1 hb] at ha
    exact hfresh ha

theorem tracks_of_extend (ht : Tracks L m s) (hsmall : m.vars.size + n < 2 ^ 31)
    (h : extend n m s = .ok (m', s')) :
    Tracks L m' s' ∧ m.vars.toList <+: m'.vars.toList ∧ m'.vars.size = m.vars.size + n := by
  induction n generalizing m s with
  | zero =>
    rw [extend, pure_eq_ok, Prod.mk.injEq] at h
    obtain ⟨rfl, rfl⟩ := h
    exact ⟨ht, List.prefix_rfl, rfl⟩
  | succ n ih =>
    rw [extend, bind_eq_ok] at h
    obtain ⟨⟨v, s₁⟩, hnew, h⟩ := h
    obtain ⟨ht', hp, hsize⟩ := ih (ht.push (by omega) hnew) (by simp; omega) h
    refine ⟨ht', List.IsPrefix.trans ?_ hp, ?_⟩
    · rw [Array.toList_push]
      exact List.prefix_append _ _
    · rw [hsize, Array.size_push]
      omega

theorem tracks_of_lit {id : Int} {l : Lit} (ht : Tracks L m s) (hid : IsId id)
    (h : m.lit s id = .ok (l, m', s')) :
    Tracks L m' s' ∧ m.vars.toList <+: m'.vars.toList ∧ id.natAbs ≤ m'.vars.size ∧
      l = m'.toLit id := by
  simp only [lit, bind_eq_ok, pure_eq_ok, fetch_eq_ok, Prod.mk.injEq] at h
  obtain ⟨⟨m₁, s₁⟩, hextend, v, hv, rfl, rfl, rfl⟩ := h
  have hsmall : m.vars.size + (id.natAbs - m.vars.size) < 2 ^ 31 := by
    have := ht.small
    have := hid.natAbs_lt
    omega
  obtain ⟨ht', hp, hsize⟩ := tracks_of_extend ht hsmall hextend
  have hle : id.natAbs ≤ m₁.vars.size := by
    have : m₁.vars.size = m.vars.size + (id.natAbs - m.vars.size) := hsize
    omega
  refine ⟨ht', hp, hle, ?_⟩
  rw [toLit, Array.getD_eq_getD_getElem?, hv, Option.getD_some]

theorem tracks_of_lits {ids : List Int} {done : Array Lit} {ls : List Lit} (ht : Tracks L m s)
    (hids : ∀ id ∈ ids, IsId id) (h : lits ids done m s = .ok (ls, m', s')) :
    Tracks L m' s' ∧ m.vars.toList <+: m'.vars.toList ∧ m'.Covers ids ∧
      ls = done.toList ++ ids.map m'.toLit := by
  induction ids generalizing done m s with
  | nil =>
    rw [lits, pure_eq_ok, Prod.mk.injEq, Prod.mk.injEq] at h
    obtain ⟨rfl, rfl, rfl⟩ := h
    exact ⟨ht, List.prefix_rfl, fun _ hid => absurd hid List.not_mem_nil, by simp⟩
  | cons id rest ih =>
    rw [lits, bind_eq_ok] at h
    obtain ⟨⟨l, m₁, s₁⟩, hlit, h⟩ := h
    obtain ⟨hid, hrest⟩ := List.forall_mem_cons.1 hids
    obtain ⟨ht₁, hp₁, hle, rfl⟩ := tracks_of_lit ht hid hlit
    obtain ⟨ht', hp, hcovers, rfl⟩ := ih ht₁ hrest h
    have hone : m₁.Covers [id] := by simpa [Covers] using ⟨hid, hle⟩
    refine ⟨ht', hp₁.trans hp, List.forall_mem_cons.2 ⟨hone.mono hp id (by simp), hcovers⟩, ?_⟩
    rw [toLit_of_covers hone hp id (by simp), Array.toList_push, List.map_cons,
      List.append_assoc, List.singleton_append]

theorem tracks_of_add {st : Statement} (ht : Tracks L m s) (hst : st.Fits n) (hn : n < 2 ^ 63)
    (h : m.add s st = .ok (m', s')) :
    Tracks { L with added := st.demand m'.toLit :: L.added } m' s' ∧
      m.vars.toList <+: m'.vars.toList ∧ m'.Covers st.ids := by
  simp only [add, bind_eq_ok] at h
  obtain ⟨⟨ls, m₁, s₁⟩, hlits, h⟩ := h
  obtain ⟨ht₁, hp, hcovers, hls⟩ := tracks_of_lits ht hst.isId hlits
  obtain rfl : ls = st.ids.map m₁.toLit := by simpa using hls
  obtain ⟨b, hdemand, rfl⟩ : ∃ b, s₁.demand (st.demand m₁.toLit) = .ok (b, s') ∧ m₁ = m' := by
    cases st <;>
    · obtain ⟨⟨b, s₂⟩, hadd, h⟩ := bind_eq_ok.1 h
      obtain ⟨rfl, rfl⟩ := Prod.mk.inj (pure_eq_ok.1 h)
      exact ⟨b, hadd, rfl⟩
  have hlength : (st.demand m₁.toLit).lits.length < 2 ^ 63 := by
    rw [Statement.lits_demand, List.length_map]
    exact Nat.lt_of_le_of_lt hst.length_le hn
  exact ⟨ht₁.call (.add _ hlength (by simp) hdemand), hp, hcovers⟩

/-! ## Whole texts -/

/-- After the statements of a text, the demands in force are theirs. -/
theorem tracks_of_foldlM {sts : List Statement} (ht : Tracks L m s)
    (hsts : ∀ st ∈ sts, st.Fits n) (hn : n < 2 ^ 63)
    (h : sts.foldlM (fun (m, s) st => add m s st) (m, s) = .ok (m', s')) :
    Tracks { L with added := (sts.map (Statement.demand m'.toLit)).reverse ++ L.added } m' s' ∧
      m.vars.toList <+: m'.vars.toList ∧ ∀ st ∈ sts, m'.Covers st.ids := by
  induction sts generalizing m s L with
  | nil =>
    rw [List.foldlM_nil, pure_eq_ok, Prod.mk.injEq] at h
    obtain ⟨rfl, rfl⟩ := h
    exact ⟨ht, List.prefix_rfl, fun _ hst => absurd hst List.not_mem_nil⟩
  | cons st sts ih =>
    rw [List.foldlM_cons, bind_eq_ok] at h
    obtain ⟨⟨m₁, s₁⟩, hadd, h⟩ := h
    obtain ⟨hst, hrest⟩ := List.forall_mem_cons.1 hsts
    obtain ⟨ht₁, hp₁, hcovers⟩ := tracks_of_add ht hst hn hadd
    obtain ⟨ht', hp, hall⟩ := ih ht₁ hrest h
    refine ⟨?_, hp₁.trans hp, List.forall_mem_cons.2 ⟨hcovers.mono hp, hall⟩⟩
    rw [Statement.demand_congr (toLit_of_covers hcovers hp)] at ht'
    rwa [List.map_cons, List.reverse_cons, List.append_assoc, List.singleton_append]

theorem tracks_of_receive {r : Reading} {ids : IdTable} (hs : s.Fresh)
    (hfits : ∀ st ∈ r.statements, st.Fits n) (hn : n < 2 ^ 63)
    (h : receive r s = .ok (.ok ids, s')) :
    r.outcome = .ok () ∧ ∃ m : Numbering, m.ids = ids ∧
      Tracks { added := (r.statements.map (Statement.demand m.toLit)).reverse } m s' ∧
      ∀ st ∈ r.statements, m.Covers st.ids := by
  simp only [receive, bind_eq_ok, pure_eq_ok, Prod.mk.injEq] at h
  obtain ⟨⟨m, s₁⟩, hfold, hids, rfl⟩ := h
  obtain ⟨ht, -, hcovers⟩ := tracks_of_foldlM (tracks_of_fresh hs) hfits hn hfold
  cases hout : r.outcome with
  | error e =>
    rw [hout] at hids
    cases hids
  | ok u =>
    rw [hout] at hids
    exact ⟨rfl, m, Except.ok.inj hids, by simpa using ht, hcovers⟩

end Numbering

end CnfPlus

end CardSat
