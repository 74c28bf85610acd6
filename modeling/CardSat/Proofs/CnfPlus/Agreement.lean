import CardSat.Proofs.CnfPlus.Writing
import CardSat.Proofs.Engine.Remainder

set_option autoImplicit false

/-! # Two ways to check an at-most constraint

A model can be checked against the literals of an at-most constraint (`Model.satisfiesAtMost`), or
against the line that states it in a text (`checkModel`). The line is judged by the distinct
literals that the model makes true, the list by all of their occurrences. Both judge alike unless
the bound lies in between (`checks_of_rendering`), so they differ only where a true literal is
repeated.

Literals and ids correspond one to one (`litId_inj`), and a model lists the ids of the literals that
it makes true (`litId_mem_modelIds_iff`). Complementary literals have opposite ids and count apart.

The comparison is about every rendering of the constraint, with any gaps, comments and signs, since
what a rendering means is known to the reader lemmas. The table of ids may be any that gives
different variables different ids.
-/

namespace CardSat

namespace Model

variable {m : Model} {lits : List Lit} {bound : Nat}

/-- The number of distinct literals of a list that a model makes true. -/
def trueCount (m : Model) (lits : List Lit) : Nat := lits.eraseDups.countP m.makesTrue

/-- How often a list repeats literals that a model makes true. -/
def trueRepeats (m : Model) (lits : List Lit) : Nat := lits.countP m.makesTrue - m.trueCount lits

theorem trueRepeats_eq_zero (h : (lits.filter m.makesTrue).Nodup) : m.trueRepeats lits = 0 :=
  Nat.sub_eq_zero_of_le (countP_le_countP_eraseDups h)

theorem satisfiesAtMost_iff : m.satisfiesAtMost lits bound = true ↔
    m.trueCount lits + m.trueRepeats lits ≤ bound := by
  have hle : m.trueCount lits ≤ lits.countP m.makesTrue := (subperm_eraseDups lits).countP_le _
  rw [satisfiesAtMost, decide_eq_true_iff, trueRepeats]
  omega

theorem makesTrue_neg {l : Lit} (h : m.makesTrue l = true) : m.makesTrue l.neg = false := by
  rw [makesTrue, beq_iff_eq] at h
  rw [makesTrue, Lit.neg_var, h, Lit.neg_negated]
  cases l.negated <;> rfl

end Model

namespace CnfPlus

variable {ids : IdTable} {m : Model} {l l' : Lit} {lits : List Lit}

/-- The ids of variables are positive words, and different variables have different ids. -/
structure ValidIds (ids : IdTable) : Prop where
  range : ∀ i k, ids.get? i = some k → 1 ≤ k ∧ k ≤ 2 ^ 31 - 1
  inj : ∀ i j k, ids.get? i = some k → ids.get? j = some k → i = j

/-- The literal is over a variable that has an id. -/
def HasId (ids : IdTable) (l : Lit) : Prop := ∃ k, ids.get? l.var.index = some k

/-- The id of a literal: that of its variable, negative for the negation. -/
def litId (ids : IdTable) (l : Lit) : Int :=
  let k := (ids.get? l.var.index).getD 0
  if l.negated then -k else k

theorem litId_eq {k : Int} (h : ids.get? l.var.index = some k) :
    litId ids l = if l.negated then -k else k := by
  rw [litId, h, Option.getD_some]

theorem litId_neg (ids : IdTable) (l : Lit) : litId ids l.neg = -litId ids l := by
  rw [litId, litId, Lit.neg_var, Lit.neg_negated]
  cases l.negated
  · rfl
  · exact (Int.neg_neg _).symm

theorem isId_litId (hv : ValidIds ids) (hl : HasId ids l) : IsId (litId ids l) := by
  obtain ⟨k, hk⟩ := hl
  obtain ⟨hpos, hle⟩ := hv.range _ k hk
  rw [litId_eq hk]
  split
  · exact ⟨by omega, by omega⟩
  · exact ⟨by omega, by omega⟩

/-- Different literals have different ids. -/
theorem litId_inj (hv : ValidIds ids) (hl : HasId ids l) (hl' : HasId ids l')
    (h : litId ids l = litId ids l') : l = l' := by
  obtain ⟨k, hk⟩ := hl
  obtain ⟨k', hk'⟩ := hl'
  have hpos := (hv.range _ k hk).1
  have hpos' := (hv.range _ k' hk').1
  rw [litId_eq hk, litId_eq hk'] at h
  -- the sign tells the side, and what is left of the id the variable
  have hside : l.negated = l'.negated := by
    cases hn : l.negated <;> cases hn' : l'.negated <;> simp [hn, hn'] at h ⊢ <;> omega
  have hid : k = k' := by
    rw [hside] at h
    split at h <;> omega
  have hvar : l.var.index = l'.var.index := hv.inj _ _ k hk (hid ▸ hk')
  rcases l with ⟨⟨i⟩, b⟩
  rcases l' with ⟨⟨j⟩, c⟩
  obtain rfl : i = j := hvar
  obtain rfl : b = c := hside
  rfl

theorem mem_modelIds_iff_litId (hv : ValidIds ids) {id : Int} : id ∈ modelIds ids m ↔
    ∃ l, HasId ids l ∧ m.makesTrue l = true ∧ id = litId ids l := by
  have hid : ∀ {i k} (b : Bool), ids.get? i = some k →
      (if b then k else negateId k) = litId ids ⟨⟨i⟩, !b⟩ := fun {i k} b hk => by
    obtain ⟨hpos, hle⟩ := hv.range i k hk
    rw [litId_eq (l := ⟨⟨i⟩, !b⟩) hk, negateId_eq ⟨by omega, by omega⟩]
    cases b <;> rfl
  rw [mem_modelIds]
  constructor
  · rintro ⟨i, b, k, hb, hk, rfl⟩
    refine ⟨⟨⟨i⟩, !b⟩, ⟨k, hk⟩, ?_, hid b hk⟩
    rw [Model.makesTrue, hb, Bool.not_not]
    exact beq_self_eq_true _
  · rintro ⟨⟨⟨i⟩, negated⟩, ⟨k, hk⟩, hm, rfl⟩
    refine ⟨i, !negated, k, beq_iff_eq.1 hm, hk, ?_⟩
    rw [hid (!negated) hk, Bool.not_not]

/-- A model lists the ids of the literals that it makes true. -/
theorem litId_mem_modelIds_iff (hv : ValidIds ids) (hl : HasId ids l) :
    litId ids l ∈ modelIds ids m ↔ m.makesTrue l = true := by
  rw [mem_modelIds_iff_litId hv]
  constructor
  · rintro ⟨l', hl', hm, heq⟩
    rwa [litId_inj hv hl hl' heq]
  · exact fun hm => ⟨l, hl, hm, rfl⟩

/-- No two ids of a model are opposite. -/
theorem negateId_not_mem_modelIds (hv : ValidIds ids) {id : Int} (h : id ∈ modelIds ids m) :
    negateId id ∉ modelIds ids m := by
  obtain ⟨l, hl, hm, rfl⟩ := (mem_modelIds_iff_litId hv).1 h
  have hneg : HasId ids l.neg := hl
  rw [negateId_eq (isId_litId hv hl), ← litId_neg, litId_mem_modelIds_iff hv hneg,
    Model.makesTrue_neg hm]
  exact Bool.false_ne_true

/-- Counting ids counts distinct true literals. -/
theorem countTrue_litId (hv : ValidIds ids) (hlits : ∀ l ∈ lits, HasId ids l) :
    countTrue (Std.HashSet.ofList (modelIds ids m)) (lits.map (litId ids)) = m.trueCount lits := by
  -- ids and literals correspond one to one, so distinct ids are those of distinct literals
  rw [countTrue_eq_countP_eraseDups, countP_eraseDups_map fun a ha b hb =>
    litId_inj hv (hlits a ha) (hlits b hb)]
  refine List.countP_congr fun l hl => ?_
  rw [Function.comp, Std.HashSet.contains_ofList, List.contains_iff_mem]
  exact litId_mem_modelIds_iff hv (hlits l (List.mem_eraseDups.1 hl))

/-- A text of one at-most constraint is checked by the distinct true literals. -/
theorem checkModel_atMost (hv : ValidIds ids) (hlits : ∀ l ∈ lits, HasId ids l) (m : Model)
    (bound : Nat) : checkModel ⟨[.atMost (lits.map (litId ids)) bound], .ok ()⟩ ids m =
      .ok (decide (m.trueCount lits ≤ bound)) := by
  have hclash : ((modelIds ids m).any fun id =>
      (Std.HashSet.ofList (modelIds ids m)).contains (negateId id)) = false := by
    rw [List.any_eq_false]
    intro id hid
    rw [Std.HashSet.contains_ofList, List.contains_iff_mem]
    exact negateId_not_mem_modelIds hv hid
  rw [checkModel, hclash, if_neg Bool.false_ne_true, Except.map, List.all_cons, List.all_nil,
    Bool.and_true, Statement.holds, countTrue_litId hv hlits]

/-- A line that states an at-most constraint is accepted if no more than `bound` distinct literals of
it are true, and its literals satisfy the bound if no more than `bound` occurrences are. So both
checks agree unless the repetitions of true literals make the difference. -/
theorem checks_of_rendering {vars count bound : Nat} {text : String} (hv : ValidIds ids)
    (hlits : ∀ l ∈ lits, HasId ids l) (hbound : bound < 2 ^ 64) (m : Model)
    (htext : Rendering vars count [.atMost (lits.map (litId ids)) bound] text.toList)
    (hvars : vars < 2 ^ 64) (hcount : count < 2 ^ 64) :
    ∃ accepted, checkModel (readBytes false text.toByteArray) ids m = .ok accepted ∧
      (accepted = true ↔ m.trueCount lits ≤ bound) ∧
      (m.satisfiesAtMost lits bound = true ↔ m.trueCount lits + m.trueRepeats lits ≤ bound) ∧
      (m.satisfiesAtMost lits bound = accepted ↔
        ¬ (m.trueCount lits ≤ bound ∧ bound < m.trueCount lits + m.trueRepeats lits)) ∧
      ((lits.filter m.makesTrue).Nodup → m.trueRepeats lits = 0) := by
  have hread : readBytes false text.toByteArray =
      ⟨[.atMost (lits.map (litId ids)) bound], .ok ()⟩ := by
    rw [readBytes_toByteArray]
    refine htext.read hvars hcount fun st hst => ?_
    obtain rfl := List.mem_singleton.1 hst
    -- the ids are the literals in the numbering of the text
    refine ⟨fun id hid => ?_, hbound⟩
    obtain ⟨l, hl, rfl⟩ := List.mem_map.1 hid
    exact isId_litId hv (hlits l hl)
  refine ⟨_, hread ▸ checkModel_atMost hv hlits m bound, decide_eq_true_iff,
    Model.satisfiesAtMost_iff, ?_, Model.trueRepeats_eq_zero⟩
  rw [Bool.eq_iff_iff, Model.satisfiesAtMost_iff, decide_eq_true_iff]
  omega

/-- The text of an at-most constraint: its ids, its bound, and a header. -/
def atMostText (ids : List Int) (bound : Nat) : String :=
  "p cnf+ 0 0\n" ++ (String.join (ids.map fun id => toString id ++ " ") ++
    ("<= " ++ (toString bound ++ "\n")))

theorem rendering_atMostText (ids : List Int) (bound : Nat) :
    Rendering 0 0 [.atMost ids bound] (atMostText ids bound).toList := by
  have hzero : Numeral 0 ['0'] := numeral_of_all (by decide) (by decide) (by decide)
  have hspace : Gap [' '] := gap_singleton (by decide)
  have hline : Gap ['\n'] := gap_singleton (by decide)
  have hbound : NumberText bound (toString bound).toList := by
    change NumberText bound bound.repr.toList
    rw [toList_repr]
    exact .plain (numeral_toDigits bound)
  have hstatement := StatementText.atMost (idsText_join ids) hspace hbound hline
  have hrendering := Rendering.mk .nil .cnfPlus hspace (.plain hzero) hspace (.plain hzero) hline
    (.cons .nil hstatement (.nil .nil))
  have hheader : "p cnf+ 0 0\n".toList = "p cnf+".toList ++ ([' '] ++ (['0'] ++ ([' '] ++
      (['0'] ++ ['\n'])))) := by decide
  have hsign : "<= ".toList = "<=".toList ++ [' '] := by decide
  have hend : "\n".toList = ['\n'] := by decide
  rw [atMostText, String.toList_append, String.toList_append, String.toList_append,
    String.toList_append, hheader, hsign, hend]
  simpa only [List.nil_append, List.append_nil, List.append_assoc] using hrendering

/-- A true literal is repeated, and its complement stands beside it. -/
theorem checks_of_repeatedLiteral :
    let x (i : Nat) : Lit := ⟨⟨i⟩, false⟩
    let lits := [x 1, x 1, (x 1).neg, x 3]
    let m : Model := ((SparseTable.empty.insert 1 true).insert 3 true).insert 6 false
    let text := "p cnf+ 0 0\n2147483647 2147483647 -2147483647 1 <= 2\n"
    (∀ i k, gappedIds.get? i = some k → ∃ b, m.get? i = some b) ∧
      m.trueCount lits = 2 ∧ m.trueRepeats lits = 1 ∧
      checkModel (readBytes false text.toByteArray) gappedIds m = .ok true ∧
      m.satisfiesAtMost lits 2 = false := by
  intro x lits m text
  have hv : ValidIds gappedIds := by
    refine ⟨fun i k h => ?_, fun i j k hi hj => ?_⟩
    · have := get?_gappedIds h
      omega
    · have := get?_gappedIds hi
      have := get?_gappedIds hj
      omega
  have hlits : ∀ l ∈ lits, HasId gappedIds l := fun l hl =>
    Option.isSome_iff_exists.1 (by revert l; decide)
  have htext : atMostText (lits.map (litId gappedIds)) 2 = text := by decide
  have hrendering := rendering_atMostText (lits.map (litId gappedIds)) 2
  rw [htext] at hrendering
  have hcount : m.trueCount lits = 2 := by decide
  have hrepeats : m.trueRepeats lits = 1 := by decide
  -- two distinct literals are true, and three occurrences of them
  obtain ⟨accepted, hcheck, haccepted, hsatisfies, -⟩ :=
    checks_of_rendering hv hlits (by decide : 2 < 2 ^ 64) m hrendering (by decide) (by decide)
  obtain rfl : accepted = true := haccepted.2 (by omega)
  refine ⟨fun i k h => ?_, hcount, hrepeats, hcheck, ?_⟩
  · rcases get?_gappedIds h with ⟨rfl, -⟩ | ⟨rfl, -⟩ | ⟨rfl, -⟩
    · exact ⟨false, by decide⟩
    · exact ⟨true, by decide⟩
    · exact ⟨true, by decide⟩
  · rw [Bool.eq_false_iff]
    intro h
    have := hsatisfies.1 h
    omega

end CnfPlus

end CardSat
