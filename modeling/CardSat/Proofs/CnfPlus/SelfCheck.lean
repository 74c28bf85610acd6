import CardSat.CnfPlus.ModelText
import CardSat.Proofs.CnfPlus.Numbering
import CardSat.Proofs.Ledger.Demands
import Mathlib

set_option autoImplicit false

/-! # Models pass the check against their text

A text is read twice: once for the solver, whose constraints are over the literals of the ids, and
once to check the model, by counting the ids of the true literals. Ids and literals correspond one
to one (`toLit_inj`), an id is listed with a total model when its literal is true
(`mem_modelIds_iff`), and so both readings of a statement agree (`holds_demand`).

That the check passes does not follow from the check being weaker than the search. It is put
together from what a model of a search is worth: it is total, and meets the demands that were made
for the text, each with the distinct literals of its list, which is also how the check counts.
-/

namespace CardSat

namespace CnfPlus

/-! ## Ids of true literals -/

theorem IsId.neg {id : Int} (h : IsId id) : IsId (-id) :=
  ⟨Int.neg_ne_zero.2 h.ne_zero, (Int.natAbs_neg id).symm ▸ h.natAbs_lt⟩

theorem negateId_eq {id : Int} (h : IsId id) : negateId id = -id := by
  have := h.natAbs_lt
  rw [negateId]
  exact Int.bmod_eq_of_le (by simp only [UInt32.size]; omega) (by simp only [UInt32.size]; omega)

theorem mem_modelIds {ids : IdTable} {model : Model} {id : Int} :
    id ∈ modelIds ids model ↔ ∃ i b k, model.get? i = some b ∧ ids.get? i = some k ∧
      id = if b then k else negateId k := by
  simp only [modelIds, List.mem_filterMap, Option.map_eq_some_iff]
  constructor
  · rintro ⟨⟨i, b⟩, hb, k, hk, rfl⟩
    exact ⟨i, b, k, SparseTable.mem_entries.1 hb, hk, rfl⟩
  · rintro ⟨i, b, k, hb, hk, rfl⟩
    exact ⟨(i, b), SparseTable.mem_entries.2 hb, k, hk, rfl⟩

/-- Sorting and leaving out what is repeated does not change what is counted. -/
theorem countTrue_eq_countP_eraseDups (trueIds : Std.HashSet Int) (ids : List Int) :
    countTrue trueIds ids = ids.eraseDups.countP trueIds.contains := by
  have hnodup : ids.mergeSort.eraseReps.Nodup :=
    (pairwise_eraseReps (fun a b hab hba => Int.le_antisymm hab hba)
      (List.pairwise_mergeSort' (· ≤ ·) ids)).imp And.right
  have hperm : ids.mergeSort.eraseReps.Perm ids.eraseDups := by
    rw [List.perm_ext_iff_of_nodup hnodup (nodup_eraseDups ids)]
    intro id
    rw [mem_eraseReps, List.mem_mergeSort, List.mem_eraseDups]
  rw [countTrue, hperm.countP_eq]

namespace Numbering

variable {m : Numbering} {s : Solver} {L : Ledger} {model : Model} {w : World} {id id' : Int}
  {ids : List Int} {trueIds : Std.HashSet Int}

theorem exists_var (hid : m.Covers [id]) :
    ∃ v, m.vars[id.natAbs - 1]? = some v ∧ m.toLit id = v.lit (id < 0) := by
  obtain ⟨hisId, hle⟩ := hid id (by simp)
  have hpos := Int.natAbs_pos.2 hisId.ne_zero
  have hlt : id.natAbs - 1 < m.vars.size := by omega
  have hget : m.vars[id.natAbs - 1]? = some m.vars[id.natAbs - 1] := Array.getElem?_eq_getElem hlt
  exact ⟨_, hget, by rw [toLit, Array.getD_eq_getD_getElem?, hget, Option.getD_some]⟩

theorem toLit_neg (hid : IsId id) : m.toLit (-id) = (m.toLit id).neg := by
  have hneg : decide (-id < 0) = !decide (id < 0) := by
    have := hid.ne_zero
    rw [← decide_not, decide_eq_decide]
    omega
  rw [toLit, toLit, Int.natAbs_neg, hneg]
  rfl

/-- Different ids have different literals. -/
theorem toLit_inj (ht : m.Tracks L s) (hid : m.Covers [id]) (hid' : m.Covers [id'])
    (h : m.toLit id = m.toLit id') : id = id' := by
  obtain ⟨v, hv, hlit⟩ := exists_var hid
  obtain ⟨v', hv', hlit'⟩ := exists_var hid'
  rw [hlit, hlit', Var.lit, Var.lit, Lit.mk.injEq, decide_eq_decide] at h
  obtain ⟨rfl, hsign⟩ := h
  rw [← Array.getElem?_toList] at hv hv'
  have hpos := Int.natAbs_pos.2 (hid id (by simp)).1.ne_zero
  have hpos' := Int.natAbs_pos.2 (hid' id' (by simp)).1.ne_zero
  have heq : id.natAbs - 1 = id'.natAbs - 1 :=
    (List.getElem?_inj (List.getElem?_eq_some_iff.1 hv).1 ht.nodup).1 (hv.trans hv'.symm)
  omega

theorem covers_neg (hid : m.Covers [id]) : m.Covers [-id] := by
  obtain ⟨hisId, hle⟩ := hid id (by simp)
  simpa [Covers] using ⟨hisId.neg, hle⟩

/-- The id in the table is that of the positive literal. -/
theorem toLit_of_get? {i : Nat} {k : Int} (ht : m.Tracks L s) (h : m.ids.get? i = some k) :
    m.Covers [k] ∧ m.toLit k = Var.lit ⟨i⟩ false := by
  obtain ⟨n, hn, rfl⟩ := (ht.ids i k).1 h
  have hlt : n < m.vars.size := (Array.getElem?_eq_some_iff.1 hn).1
  have hsmall := ht.small
  have hcovers : m.Covers [(n : Int) + 1] := by
    have hisId : IsId ((n : Int) + 1) := ⟨by omega, by omega⟩
    simpa [Covers] using ⟨hisId, by omega⟩
  obtain ⟨v, hv, hlit⟩ := exists_var hcovers
  rw [show ((n : Int) + 1).natAbs - 1 = n by omega, hn] at hv
  rw [hlit, ← Option.some.inj hv, decide_eq_false (by omega)]
  exact ⟨hcovers, rfl⟩

theorem covers_of_mem_modelIds (ht : m.Tracks L s) (h : id ∈ modelIds m.ids model) :
    m.Covers [id] := by
  obtain ⟨i, b, k, -, hk, rfl⟩ := mem_modelIds.1 h
  obtain ⟨hcovers, -⟩ := toLit_of_get? ht hk
  cases b with
  | true => exact hcovers
  | false =>
    rw [if_neg Bool.false_ne_true, negateId_eq (hcovers k (by simp)).1]
    exact covers_neg hcovers

/-- The ids of a total model are those of the literals that it makes true. -/
theorem mem_modelIds_iff (ht : m.Tracks L s)
    (htotal : ∀ v : Var, v.index < s.varCount → ∃ b, model.get? v.index = some b)
    (hw : model.Agrees w) (hid : m.Covers [id]) :
    id ∈ modelIds m.ids model ↔ (m.toLit id).holds w = true := by
  rw [mem_modelIds]
  constructor
  · rintro ⟨i, b, k, hb, hk, rfl⟩
    obtain ⟨hcovers, hlit⟩ := toLit_of_get? ht hk
    have hwi : w ⟨i⟩ = b := hw ⟨i⟩ b hb
    cases b with
    | true =>
      rw [if_pos rfl, hlit, Lit.holds, Var.lit, hwi]
      rfl
    | false =>
      have hisId := (hcovers k (by simp)).1
      rw [if_neg Bool.false_ne_true, negateId_eq hisId, toLit_neg hisId, hlit, Lit.holds_neg,
        Lit.holds, Var.lit, hwi]
      rfl
  -- the variable of the id has a value since the model is total, and the value decides the sign
  · intro hholds
    obtain ⟨v, hv, hlit⟩ := exists_var hid
    have hisId := (hid id (by simp)).1
    have hpos := Int.natAbs_pos.2 hisId.ne_zero
    obtain ⟨b, hb⟩ := htotal v (ht.known v (Array.mem_toList_iff.2 (Array.mem_of_getElem? hv)))
    have hk : m.ids.get? v.index = some (id.natAbs : Int) :=
      (ht.ids _ _).2 ⟨id.natAbs - 1, hv, by omega⟩
    refine ⟨v.index, b, id.natAbs, hb, hk, ?_⟩
    have hnat : IsId (id.natAbs : Int) := ⟨by omega, by
      rw [Int.natAbs_natCast]
      exact hisId.natAbs_lt⟩
    rw [hlit, Lit.holds, Var.lit, hw v b hb] at hholds
    cases b with
    | true =>
      have : ¬ id < 0 := by simpa using hholds
      rw [if_pos rfl]
      omega
    | false =>
      have : id < 0 := by simpa using hholds
      rw [if_neg Bool.false_ne_true, negateId_eq hnat]
      omega

/-! ## Statements -/

theorem countTrue_eq_count (ht : m.Tracks L s) (hids : m.Covers ids)
    (htrue : ∀ id ∈ ids, trueIds.contains id = (m.toLit id).holds w) :
    countTrue trueIds ids = w.count (ids.map m.toLit) := by
  have hone : ∀ id ∈ ids, m.Covers [id] := fun id hid => by simpa [Covers] using hids id hid
  have hcontains : ∀ id ∈ ids.eraseDups, trueIds.contains id = true ↔
      (Lit.holds w ∘ m.toLit) id = true := fun id hid => by
    rw [htrue id (List.mem_eraseDups.1 hid), Function.comp]
  calc countTrue trueIds ids
      = ids.eraseDups.countP trueIds.contains := countTrue_eq_countP_eraseDups trueIds ids
    _ = ids.eraseDups.countP (Lit.holds w ∘ m.toLit) := List.countP_congr hcontains
    _ = w.count (ids.map m.toLit) :=
        (countP_eraseDups_map (fun a ha b hb => toLit_inj ht (hone a ha) (hone b hb)) _).symm

/-- A statement holds when its demand does. -/
theorem holds_demand {st : Statement} (ht : m.Tracks L s) (hids : m.Covers st.ids)
    (htrue : ∀ id ∈ st.ids, trueIds.contains id = (m.toLit id).holds w) :
    st.holds trueIds = (st.demand m.toLit).holds w := by
  have hcount := countTrue_eq_count ht hids htrue
  cases st with
  | clause ids =>
    rw [Statement.demand, Demand.holds, World.clauseHolds, List.any_map, Statement.holds,
      Bool.eq_iff_iff, List.any_eq_true, List.any_eq_true]
    exact exists_congr fun id => and_congr_right fun hid => by rw [htrue id hid, Function.comp]
  | atMost ids bound => exact congrArg (fun n => decide (n ≤ bound)) hcount
  | atLeast ids bound => exact congrArg (fun n => decide (bound ≤ n)) hcount

/-- A total model that meets the demands of a text passes the check. -/
theorem checkModel_of_meets {r : Reading} (ht : m.Tracks L s)
    (hcovers : ∀ st ∈ r.statements, m.Covers st.ids) (hr : r.outcome = .ok ())
    (htotal : ∀ v : Var, v.index < s.varCount → ∃ b, model.get? v.index = some b)
    (hw : model.Agrees w) (hmeets : ∀ st ∈ r.statements, (st.demand m.toLit).holds w = true) :
    checkModel r m.ids model = .ok true := by
  have htrue : ∀ id, m.Covers [id] → (Std.HashSet.ofList (modelIds m.ids model)).contains id =
      (m.toLit id).holds w := fun id hid => by
    rw [Bool.eq_iff_iff, Std.HashSet.contains_ofList, List.contains_iff_mem]
    exact mem_modelIds_iff ht htotal hw hid
  -- no id stands in the model with both signs
  have hclash : ((modelIds m.ids model).any fun id =>
      (Std.HashSet.ofList (modelIds m.ids model)).contains (negateId id)) = false := by
    rw [List.any_eq_false]
    intro id hid
    have hcovers := covers_of_mem_modelIds ht hid
    have hisId := (hcovers id (by simp)).1
    rw [negateId_eq hisId, htrue _ (covers_neg hcovers), toLit_neg hisId, Lit.holds_neg,
      (mem_modelIds_iff ht htotal hw hcovers).1 hid]
    exact Bool.false_ne_true
  have hall : r.statements.all
      (Statement.holds (Std.HashSet.ofList (modelIds m.ids model))) = true := by
    rw [List.all_eq_true]
    intro st hst
    rw [holds_demand ht (hcovers st hst) fun id hid =>
      htrue id (by simpa [Covers] using hcovers st hst id hid)]
    exact hmeets st hst
  rw [checkModel, hclash, if_neg Bool.false_ne_true, hr, Except.map, hall]

end Numbering

/-! ## The check after a search -/

section

variable {s s₁ s₂ s₃ : Solver} {bytes : ByteArray} {strict : Bool} {ids : IdTable}
  {model : Model} {σ : Type} {st st' : σ} {budget : Budget} {handler : Handler (StateM σ)}

/-- A model that is found for a text, after preprocessing or not, passes the check against the
same text. The text fits into memory, so its length is a signed word. -/
theorem checkModel_of_receive (hs : s.Fresh) (hbytes : bytes.size < 2 ^ 63)
    (hreceive : receive (readBytes strict bytes) s = .ok (.ok ids, s₁))
    (hprepared : s₂ = s₁ ∨ ∃ b, s₁.preprocess = .ok (b, s₂))
    (hsolve : Returns (s₂.solve budget [] handler) st (.sat model, s₃) st') :
    checkModel (readBytes false bytes) ids model = .ok true := by
  obtain ⟨hr, m, rfl, ht, hcovers⟩ :=
    Numbering.tracks_of_receive hs fits_of_readBytes hbytes hreceive
  have ht₂ : m.Tracks { added := ((readBytes strict bytes).statements.map
      (Statement.demand m.toLit)).reverse } s₂ := by
    rcases hprepared with rfl | ⟨b, hprep⟩
    · exact ht
    · exact ht.call (.preprocess hprep)
  have hv := valid_of_run ht₂.run
  obtain ⟨-, htotal, -, hmeets⟩ := model_of_solve hv rfl hsolve
  rw [readBytes_of_strict hr]
  refine Numbering.checkModel_of_meets ht₂ hcovers rfl htotal model.agrees_fill fun st hst => ?_
  refine hmeets (hv.uncanceled rfl) _ model.agrees_fill _ ?_
  exact List.mem_reverse.2 (List.mem_map_of_mem hst)

/-- A text of a clause and a bound on the same variables. -/
def sampleText : String := "p cnf+ 2 2\n1 -2 0\n1 2 <= 1\n"

/-- The constraints of `sampleText`. -/
def sampleReading : Reading := ⟨[.clause [1, -2], .atMost [1, 2] 1], .ok ()⟩

theorem readBytes_sampleText : readBytes true sampleText.toByteArray = sampleReading := by
  have hheader : readHeader sampleText.toList = .ok (2, 2, "\n1 -2 0\n1 2 <= 1\n".toList) := by
    cbv
  have hread : readStatements #[] "\n1 -2 0\n1 2 <= 1\n".toList =
      (#[.clause [1, -2], .atMost [1, 2] 1], .ok ()) := by
    have h₁ : readStatement [] (skipBlanks "\n1 -2 0\n1 2 <= 1\n".toList) =
        .ok (.clause [1, -2], "\n1 2 <= 1\n".toList) := by cbv
    have h₂ : readStatement [] (skipBlanks "\n1 2 <= 1\n".toList) =
        .ok (.atMost [1, 2] 1, "\n".toList) := by cbv
    rw [readStatements_of_readStatement h₁, readStatements_of_readStatement h₂,
      readStatements_of_blank (by cbv)]
    rfl
  have hused : variablesUsed [.clause [1, -2], .atMost [1, 2] 1] = 2 := by
    rw [variablesUsed, List.mergeSort_eq_insertionSort (· ≤ ·)]
    decide
  rw [readBytes_toByteArray, read, hheader]
  simp only [hread, checkHeader, hused, if_true]
  rfl

/-- Receives the constraints of a text, and searches. -/
def receiveAndSolve (r : Reading) (s : Solver) : Checked (Except ReadError IdTable × Answer) := do
  let (ids, s) ← receive r s
  let (a, _) ← s.attempt [] (Handler.none : Handler (StateM Unit)) ()
  return (ids, a)

/-- The check of the model that is found for `sampleText`. -/
theorem checkModel_sampleText :
    ∃ (s s₁ s₂ : Solver) (ids : IdTable) (model : Model), s.Fresh ∧
      receive (readBytes true sampleText.toByteArray) s = .ok (.ok ids, s₁) ∧
      Returns (s₁.solve {} [] (Handler.none : Handler (StateM Unit))) () (.sat model, s₂) () ∧
      checkModel (readBytes false sampleText.toByteArray) ids model = .ok true := by
  have hpass : (Solver.new {} >>= fun s => receiveAndSolve sampleReading s).toOption.any
      (fun x => x.1.toOption.isSome && x.2.model?.isSome) = true := by
    simp only [receiveAndSolve, receive, Numbering.add, Receiver.addClause, Receiver.addAtMost,
      Solver.addClause, Solver.addAtMost, Engine.addAtMost, Engine.addClause, Engine.addReduced,
      Lit.sortDistinct, Lit.sort_eq_insertionSort]
    decide +kernel
  cases hx : Solver.new {} >>= fun s => receiveAndSolve sampleReading s with
  | error e =>
    rw [hx] at hpass
    cases hpass
  | ok x =>
    rw [hx] at hpass
    simp only [receiveAndSolve, bind_eq_ok, pure_eq_ok] at hx
    obtain ⟨s, hs, ⟨ids, s₁⟩, hreceive, ⟨a, s₂⟩, hattempt, rfl⟩ := hx
    obtain ⟨hids, hsat⟩ := Bool.and_eq_true_iff.1 hpass
    obtain ⟨model, rfl⟩ := Answer.exists_eq_sat hsat
    cases ids with
    | error e => cases hids
    | ok ids =>
      rw [← readBytes_sampleText] at hreceive
      obtain ⟨st', hreturns⟩ := returns_of_attempt hattempt
      exact ⟨s, s₁, s₂, ids, model, .new hs, hreceive, hreturns,
        checkModel_of_receive (.new hs) (by decide) hreceive (.inl rfl) hreturns⟩

end

end CnfPlus

end CardSat
