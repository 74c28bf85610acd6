import CardSat.Proofs.CnfPlus.Rendering
import CardSat.Proofs.CnfPlus.SelfCheck
import Mathlib

set_option autoImplicit false

/-! # Written models are read back

The text of a model is a statement without its header: ids, each followed by a space, and a zero.
Behind a header it is therefore a rendering of one clause (`rendering_writeModel`), and what the
reader makes of renderings is known. What is left is to say which clause this is: `Spells` lists the
literals along the variables that have both an id and a value.

Numbers are printed by the library, and that the printed digits are a numeral of the grammar is
shown from the library's lemmas on them (`numeral_toDigits`).
-/

namespace CardSat

namespace CnfPlus

/-! ## Numbers as they are printed -/

theorem numeral_toDigits (n : Nat) : Numeral n (Nat.toDigits 10 n) where
  ne_nil := Nat.toDigits_ne_nil
  isDigit _ hc := Nat.isDigit_of_mem_toDigits (by decide) (by decide) hc
  value := Nat.ofDigitChars_eq_foldl.symm.trans Nat.ofDigitChars_ten_toDigits

theorem toList_repr (n : Nat) : n.repr.toList = Nat.toDigits 10 n := by
  rw [← Nat.toString_eq_repr, Nat.toString_eq_ofList_toDigits, String.toList_ofList]

/-- A printed number is the id it stands for. -/
theorem idText_toString (id : Int) : IdText id (toString id).toList := by
  change IdText id id.repr.toList
  rw [Int.repr_eq_if]
  split
  next h =>
    have hnat : ((id.toNat : Nat) : Int) = id := Int.toNat_of_nonneg h
    rw [toList_repr, ← hnat, Int.toNat_natCast]
    exact .number (.plain (numeral_toDigits _))
  next h =>
    have hnat : -(((-id).toNat : Nat) : Int) = id := by omega
    have htext := IdText.minus (numeral_toDigits (-id).toNat)
    rw [hnat] at htext
    rw [String.toList_append, toList_repr]
    exact htext

theorem idsText_join (ids : List Int) :
    IdsText ids (String.join (ids.map fun id => toString id ++ " ")).toList := by
  induction ids with
  | nil =>
    rw [List.map_nil, String.join_nil]
    exact .nil
  | cons id ids ih =>
    rw [List.map_cons, String.join_cons, String.toList_append, String.toList_append,
      List.append_assoc]
    exact .cons (idText_toString id) (gap_singleton (by decide)) ih

variable {ids : IdTable} {m : Model} {vs : List Nat} {L : List Int}

/-- Behind a header, the text of a model renders one clause. -/
theorem rendering_writeModel (ids : IdTable) (m : Model) :
    Rendering 0 0 [.clause (modelIds ids m)] ("p cnf 0 0\n" ++ writeModel ids m).toList := by
  have hzero : Numeral 0 ['0'] := numeral_of_all (by decide) (by decide) (by decide)
  have hspace : Gap [' '] := gap_singleton (by decide)
  have hline : Gap ['\n'] := gap_singleton (by decide)
  have hclause := StatementText.clause (idsText_join (modelIds ids m)) (.number (.plain hzero)) hline
  have hrendering := Rendering.mk .nil .cnf hspace (.plain hzero) hspace (.plain hzero) hline
    (.cons .nil hclause (.nil .nil))
  have hheader : "p cnf 0 0\n".toList = "p cnf".toList ++ ([' '] ++ (['0'] ++ ([' '] ++
      (['0'] ++ ['\n'])))) := by decide
  have hend : "0\n".toList = ['0'] ++ ['\n'] := by decide
  rw [String.toList_append, writeModel, String.toList_append, hheader, hend]
  simpa only [List.nil_append, List.append_nil, List.append_assoc] using hrendering

/-! ## Which literals a model writes -/

/-- The literal of a variable in a model: its id, negative where the variable is false. -/
def LiteralOf (ids : IdTable) (m : Model) (i : Nat) (l : Int) : Prop :=
  ∃ k b, ids.get? i = some k ∧ m.get? i = some b ∧ l = if b then k else -k

/-- The list `L` goes along the variables `vs`: these are the variables with both an id and a
value, in ascending order, and each contributes its literal. -/
structure Spells (ids : IdTable) (m : Model) (vs : List Nat) (L : List Int) : Prop where
  ascending : vs.Pairwise (· < ·)
  mem : ∀ i, i ∈ vs ↔ (∃ k, ids.get? i = some k) ∧ ∃ b, m.get? i = some b
  literals : List.Forall₂ (LiteralOf ids m) vs L

/-- The variables of some entries that have an id. -/
def numbered (ids : IdTable) (entries : List (Nat × Bool)) : List Nat :=
  entries.filterMap fun e => (ids.get? e.1).map fun _ => e.1

theorem mem_numbered {entries : List (Nat × Bool)} {i : Nat} :
    i ∈ numbered ids entries ↔ (∃ k, ids.get? i = some k) ∧ ∃ b, (i, b) ∈ entries := by
  simp only [numbered, List.mem_filterMap, Option.map_eq_some_iff]
  constructor
  · rintro ⟨⟨j, b⟩, hb, k, hk, rfl⟩
    exact ⟨⟨k, hk⟩, b, hb⟩
  · rintro ⟨⟨k, hk⟩, b, hb⟩
    exact ⟨(i, b), hb, k, hk, rfl⟩

/-- Along the entries of a model, the ids written are the literals of the numbered variables. -/
theorem forall₂_literalOf (hids : ∀ i k, ids.get? i = some k → IsId k)
    (entries : List (Nat × Bool)) (hm : ∀ i b, (i, b) ∈ entries → m.get? i = some b) :
    List.Forall₂ (LiteralOf ids m) (numbered ids entries)
      (entries.filterMap fun e => (ids.get? e.1).map fun id =>
        if e.2 then id else negateId id) := by
  induction entries with
  | nil => exact .nil
  | cons e entries ih =>
    obtain ⟨i, b⟩ := e
    have hrest := ih fun j c hc => hm j c (by simp [hc])
    cases hk : ids.get? i with
    | none => simpa [numbered, hk] using hrest
    | some k =>
      have hlit : LiteralOf ids m i (if b then k else negateId k) :=
        ⟨k, b, hk, hm i b (by simp), by rw [negateId_eq (hids i k hk)]⟩
      simpa [numbered, hk] using List.Forall₂.cons hlit hrest

theorem spells_modelIds (hids : ∀ i k, ids.get? i = some k → IsId k) (m : Model) :
    Spells ids m (numbered ids m.entries) (modelIds ids m) where
  ascending := by
    refine List.Pairwise.filterMap _ (fun e e' hlt i hi j hj => ?_) m.pairwise_entries
    obtain ⟨-, -, rfl⟩ := Option.map_eq_some_iff.1 hi
    obtain ⟨-, -, rfl⟩ := Option.map_eq_some_iff.1 hj
    exact hlt
  mem i := by simp only [mem_numbered, SparseTable.mem_entries]
  literals := forall₂_literalOf hids m.entries fun _ _ he => SparseTable.mem_entries.1 he

/-- Where no id is used twice, no literal is written twice. -/
theorem Spells.nodup (h : Spells ids m vs L) (hpos : ∀ i k, ids.get? i = some k → 0 < k)
    (hinj : ∀ i j k, ids.get? i = some k → ids.get? j = some k → i = j) : L.Nodup := by
  have hleft : Relator.LeftUnique (LiteralOf ids m) := by
    rintro i j l ⟨k, b, hk, -, rfl⟩ ⟨k', b', hk', -, hl⟩
    have hk_pos := hpos i k hk
    have hk_pos' := hpos j k' hk'
    have hid : k = k' := by split at hl <;> split at hl <;> omega
    exact hinj i j k hk (hid ▸ hk')
  have hright : Relator.RightUnique (LiteralOf ids m) := by
    rintro i l l' ⟨k, b, hk, hb, rfl⟩ ⟨k', b', hk', hb', rfl⟩
    obtain rfl := Option.some.inj (hk.symm.trans hk')
    obtain rfl := Option.some.inj (hb.symm.trans hb')
    rfl
  exact (List.rel_nodup ⟨hleft, hright⟩ h.literals).1 (h.ascending.imp Nat.ne_of_lt)

/-! ## Reading a written model -/

/-- Under an injective numbering of variables, the text of a model behind a header is read as one
clause: the literals of the variables that have both an id and a value, in ascending order of the
variables and without repetition. -/
theorem readBytes_writeModel (hids : ∀ i k, ids.get? i = some k → 1 ≤ k ∧ k ≤ 2 ^ 31 - 1)
    (hinj : ∀ i j k, ids.get? i = some k → ids.get? j = some k → i = j) (m : Model) :
    ∃ vs L, Spells ids m vs L ∧ L.Nodup ∧
      readBytes false ("p cnf 0 0\n" ++ writeModel ids m).toByteArray =
        ⟨[.clause L], .ok ()⟩ := by
  have hisId : ∀ i k, ids.get? i = some k → IsId k := fun i k hk => by
    obtain ⟨hpos, hle⟩ := hids i k hk
    exact ⟨by omega, by omega⟩
  have hspells := spells_modelIds hisId m
  refine ⟨_, _, hspells, hspells.nodup (fun i k hk => (hids i k hk).1) hinj, ?_⟩
  rw [readBytes_toByteArray]
  refine (rendering_writeModel ids m).read (by decide) (by decide) fun st hst => ?_
  obtain rfl := List.mem_singleton.1 hst
  refine ⟨fun id hid => ?_, Nat.zero_lt_succ _⟩
  obtain ⟨i, b, k, -, hk, rfl⟩ := mem_modelIds.1 hid
  have hk := hisId i k hk
  cases b with
  | true => exact hk
  | false =>
    rw [if_neg Bool.false_ne_true, negateId_eq hk]
    exact hk.neg

/-- A numbering out of order, with gaps and up to the greatest id. -/
def gappedIds : IdTable := ((SparseTable.empty.insert 1 2147483647).insert 3 1).insert 6 40

theorem get?_gappedIds {i : Nat} {k : Int} (h : gappedIds.get? i = some k) :
    (i = 6 ∧ k = 40) ∨ (i = 3 ∧ k = 1) ∨ (i = 1 ∧ k = 2147483647) := by
  simp only [gappedIds, SparseTable.get?_insert, SparseTable.get?_empty] at h
  split_ifs at h <;> simp_all

/-- A model that leaves out a numbered variable and has one without a number. -/
def gappedModel : Model := ((SparseTable.empty.insert 0 true).insert 1 false).insert 6 true

theorem readBytes_gappedModel : writeModel gappedIds gappedModel = "-2147483647 40 0\n" ∧
    ∃ vs L, Spells gappedIds gappedModel vs L ∧ L.Nodup ∧
      readBytes false ("p cnf 0 0\n" ++ writeModel gappedIds gappedModel).toByteArray =
        ⟨[.clause L], .ok ()⟩ := by
  refine ⟨by decide +kernel, readBytes_writeModel (fun i k h => ?_) (fun i j k hi hj => ?_) _⟩
  · have := get?_gappedIds h
    omega
  · have := get?_gappedIds hi
    have := get?_gappedIds hj
    omega

end CnfPlus

end CardSat
