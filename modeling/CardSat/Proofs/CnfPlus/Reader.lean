import CardSat.CnfPlus.Reader
import CardSat.Proofs.Checked
import Mathlib.Algebra.Group.Nat.Defs

set_option autoImplicit false

/-! # What a reading contains

The ids of a statement are not zero, fit a signed 32-bit word, and are no more than the text has
characters (`Statement.Fits`), so nothing that is computed from them overflows. A strict reading
finds the statements that any reading finds, and accepts fewer texts.

The number of characters bounds the number of ids, and with it the length of every list of literals
that a text can lead to. Bounds of at-most constraints are signed 64-bit words inside a solver; no
list from a text is long enough to make one of them wrap around.
-/

namespace CardSat

namespace CnfPlus

/-- An id of a literal over a numbered variable. Both it and its opposite are signed 32-bit
words. -/
structure IsId (id : Int) : Prop where
  ne_zero : id ≠ 0
  natAbs_lt : id.natAbs < 2 ^ 31

/-- The ids of a statement are such, and no more than `n`. -/
structure Statement.Fits (n : Nat) (st : Statement) : Prop where
  isId : ∀ id ∈ st.ids, IsId id
  length_le : st.ids.length ≤ n

theorem Statement.Fits.mono {m n : Nat} {st : Statement} (h : st.Fits m) (hmn : m ≤ n) :
    st.Fits n :=
  ⟨h.isId, Nat.le_trans h.length_le hmn⟩

variable {s r : List Char} {st : Statement} {strict : Bool}

/-! ## Statements -/

theorem natAbs_of_readId {id : Int} (h : readId s = .ok (id, r)) : id.natAbs < 2 ^ 31 := by
  simp only [readId] at h
  cases hd : readDigits (splitSign (skipBlanks s)).2 with
  | error e => simp [hd, bind, Except.bind] at h
  | ok nr =>
    obtain ⟨n, q⟩ := nr
    simp only [hd, bind, Except.bind] at h
    split at h
    next hn =>
      obtain ⟨rfl, -⟩ := Prod.mk.injEq .. ▸ Except.ok.inj h
      split <;> omega
    next => contradiction

theorem eq_of_bound {w : String} {f : Nat → Statement} (h : (do
      let r ← expect w s
      let (k, r) ← readNumber r
      return (f k, r) : Except ReadError (Statement × List Char)) = .ok (st, r)) :
    ∃ k, st = f k := by
  cases he : expect w s with
  | error e => simp [he, bind, Except.bind] at h
  | ok q =>
    cases hn : readNumber q with
    | error e => simp [he, hn, bind, Except.bind] at h
    | ok kr =>
      simp only [he, hn, bind, Except.bind, pure, Except.pure, Except.ok.injEq,
        Prod.mk.injEq] at h
      exact ⟨kr.1, h.1.symm⟩

/-- The ids of a statement were read before or take up text. -/
theorem fits_of_readStatement {ids : List Int} (h : readStatement ids s = .ok (st, r))
    (hids : ∀ id ∈ ids, IsId id) : st.Fits (ids.length + s.length) := by
  have hrev : ∀ {ids : List Int}, (∀ id ∈ ids, IsId id) → ∀ id ∈ ids.reverse, IsId id :=
    fun hids id hid => hids id (List.mem_reverse.1 hid)
  fun_induction readStatement ids s with
  | case1 ids s q hq =>
    obtain ⟨k, rfl⟩ := eq_of_bound h
    exact ⟨hrev hids, by simp [Statement.ids]⟩
  | case2 ids s q hq =>
    obtain ⟨k, rfl⟩ := eq_of_bound h
    exact ⟨hrev hids, by simp [Statement.ids]⟩
  | case3 => contradiction
  | case4 ids s q _ _ _ hlt =>
    obtain ⟨rfl, -⟩ := Prod.mk.injEq .. ▸ Except.ok.inj h
    exact ⟨hrev hids, by simp [Statement.ids]⟩
  | case5 ids s id q hne _ _ hread hlt ih =>
    have hid : IsId id := ⟨hne, natAbs_of_readId hread⟩
    refine (ih h (List.forall_mem_cons.2 ⟨hid, hids⟩)).mono ?_
    rw [List.length_cons]
    omega

/-! ## Texts -/

theorem fits_of_readStatements {n : Nat} {done : Array Statement}
    (hdone : ∀ st ∈ done.toList, st.Fits n) (hn : s.length ≤ n) :
    ∀ st ∈ (readStatements done s).1.toList, st.Fits n := by
  fun_induction readStatements done s with
  | case1 => exact hdone
  | case2 done s r _ hlt ih => exact ih hdone (by omega)
  | case3 => exact hdone
  | case4 done s st r _ _ hread hlt ih =>
    have hskip := length_skipBlanks_le s
    have hst : st.Fits n := (fits_of_readStatement hread (by simp)).mono (by
      rw [List.length_nil]
      omega)
    refine ih (fun x hx => ?_) (by omega)
    rw [Array.toList_push, List.mem_append, List.mem_singleton] at hx
    rcases hx with hx | rfl
    · exact hdone x hx
    · exact hst

/-- A statement that can be read is taken in, and reading goes on behind it. -/
theorem readStatements_of_readStatement {done : Array Statement}
    (h : readStatement [] (skipBlanks s) = .ok (st, r)) :
    readStatements done s = readStatements (done.push st) r := by
  rw [readStatements]
  split
  next hq =>
    rw [hq, show readStatement [] [] = .error .numberExpected by cbv] at h
    contradiction
  next r' hq =>
    rw [hq, show readStatement [] ('c' :: r') = .error .numberExpected by cbv] at h
    contradiction
  next =>
    split
    next hread =>
      rw [h] at hread
      contradiction
    next hread =>
      rw [h] at hread
      obtain ⟨rfl, rfl⟩ := Prod.mk.inj (Except.ok.inj hread)
      rfl

theorem readStatements_of_blank {done : Array Statement} (h : skipBlanks s = []) :
    readStatements done s = (done, .ok ()) := by
  rw [readStatements]
  split
  next => rfl
  next hq =>
    rw [h] at hq
    contradiction
  next hnil _ => exact absurd h hnil

theorem length_readHeader_le {vars count : Nat} (h : readHeader s = .ok (vars, count, r)) :
    r.length ≤ s.length := by
  fun_induction readHeader s with
  | case1 s r' _ hlt ih =>
    have := ih h
    omega
  | case2 s hne =>
    have hskip := length_skipBlanks_le s
    simp only [bind, Except.bind] at h
    split at h
    next => contradiction
    next r₁ hword =>
      have h₁ := length_expectChars_le hword
      split at h
      next => contradiction
      next x hvars =>
        have h₂ := length_readNumber_lt hvars
        split at h
        next => contradiction
        next y hcount =>
          have h₃ := length_readNumber_lt hcount
          obtain ⟨-, hrest⟩ := Prod.mk.inj (Except.ok.inj h)
          obtain ⟨-, rfl⟩ := Prod.mk.inj hrest
          split at h₂
          next => rw [List.length_cons] at h₁; omega
          next => omega

/-- The statements of a text fit it, whatever is wrong with the rest. -/
theorem fits_of_read : ∀ st ∈ (read strict s).statements, st.Fits s.length := by
  unfold read
  split
  next => exact fun st hst => absurd hst List.not_mem_nil
  next vars count r hheader =>
    have hnone : ∀ st ∈ (#[] : Array Statement).toList, st.Fits s.length := by simp
    have hfits := fits_of_readStatements hnone (length_readHeader_le hheader)
    simp only
    split <;> exact hfits

/-- A text that is read strictly is also read, with the same statements. -/
theorem read_of_strict (h : (read strict s).outcome = .ok ()) :
    read false s = ⟨(read strict s).statements, .ok ()⟩ := by
  unfold read at h ⊢
  cases hheader : readHeader s with
  | error e => simp [hheader] at h
  | ok x =>
    obtain ⟨vars, count, r⟩ := x
    cases hread : readStatements #[] r with
    | mk done outcome =>
      cases outcome with
      | error e => simp [hheader, hread] at h
      | ok u => simp [hread]

/-! ## Bytes -/

theorem length_le_size_utf8Encode (cs : List Char) : cs.length ≤ cs.utf8Encode.size := by
  induction cs with
  | nil => exact Nat.zero_le _
  | cons c cs ih =>
    have hc := c.utf8Size_pos
    rw [List.utf8Encode_cons, ByteArray.size_append, List.utf8Encode_singleton,
      List.size_toByteArray, String.length_utf8EncodeChar, List.length_cons]
    omega

theorem length_of_fromUTF8? {bytes : ByteArray} {text : String}
    (h : String.fromUTF8? bytes = some text) : text.toList.length ≤ bytes.size := by
  unfold String.fromUTF8? at h
  split at h
  next hvalid =>
    obtain rfl := Option.some.inj h
    have := length_le_size_utf8Encode (String.fromUTF8 bytes hvalid).toList
    rwa [String.utf8Encode_toList] at this
  next => contradiction

theorem readBytes_toByteArray (text : String) :
    readBytes strict text.toByteArray = read strict text.toList := by
  have htext : String.fromUTF8? text.toByteArray = some text := by
    rw [String.fromUTF8?, dif_pos text.isValidUTF8]
    rfl
  rw [readBytes, htext]

theorem fits_of_readBytes {bytes : ByteArray} :
    ∀ st ∈ (readBytes strict bytes).statements, st.Fits bytes.size := by
  unfold readBytes
  split
  next => exact fun st hst => absurd hst List.not_mem_nil
  next text htext =>
    exact fun st hst => (fits_of_read st hst).mono (length_of_fromUTF8? htext)

theorem readBytes_of_strict {bytes : ByteArray} (h : (readBytes strict bytes).outcome = .ok ()) :
    readBytes false bytes = ⟨(readBytes strict bytes).statements, .ok ()⟩ := by
  unfold readBytes at h ⊢
  split at h
  next => contradiction
  next => exact read_of_strict h

end CnfPlus

end CardSat
