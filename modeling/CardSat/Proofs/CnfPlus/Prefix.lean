import CardSat.Proofs.CnfPlus.Reader
import Mathlib.Data.List.TakeWhile

set_option autoImplicit false

/-! # What a reader takes off a text

The readers look one character ahead only, and the one thing that can lengthen what they have read
is a further digit. So a reader that took a value off some text takes the same value off the same
characters whatever follows, as long as it is not a digit (`Takes`).

Tokens are described by a small grammar: `Numeral` for digits, `NumberText` and `IdText` with a
sign. The lemmas `readNumber_eq_ok_iff` and `readId_eq_ok_iff` say that the token readers accept
this grammar, up to the limits of the machine words. Statements, the header and the list of
statements are taken apart in the same way.

## How it is used

The lemmas about tokens go in both directions. That a text of the grammar is read is needed for
texts that somebody writes (`Proofs.CnfPlus.Rendering`, `Proofs.CnfPlus.Writing`). That a text which
is read begins with one of the grammar is needed for texts that break off: what was read of them
before the error can be cut out, and is a text by itself.
-/

namespace CardSat

namespace CnfPlus

/-- No digit comes first, so that a number may end before this text. -/
def Apart (s : List Char) : Prop := ∀ c ∈ s.head?, c.isDigit = false

/-- Every character is blank. -/
def Blank (s : List Char) : Prop := ∀ c ∈ s, isBlank c = true

/-- The digits of a number, leading zeros allowed. -/
structure Numeral (n : Nat) (ds : List Char) : Prop where
  ne_nil : ds ≠ []
  isDigit : ∀ c ∈ ds, c.isDigit = true
  value : digitsValue ds = n

/-- A number as it is written: digits, with or without a plus sign. -/
inductive NumberText (n : Nat) : List Char → Prop
  | plain {ds : List Char} (h : Numeral n ds) : NumberText n ds
  | plus {ds : List Char} (h : Numeral n ds) : NumberText n ('+' :: ds)

/-- The id of a literal as it is written: digits, with or without a sign. -/
inductive IdText : Int → List Char → Prop
  | number {n : Nat} {u : List Char} (h : NumberText n u) : IdText n u
  | minus {n : Nat} {ds : List Char} (h : Numeral n ds) : IdText (-n) ('-' :: ds)

/-- A reader takes a value off the text `u`, whatever follows except a digit. -/
def Takes {α : Type} (f : List Char → Except ReadError (α × List Char)) (u : List Char) (a : α) :
    Prop :=
  ∀ r, Apart r → f (u ++ r) = .ok (a, r)

variable {s r q u g : List Char} {n : Nat} {id : Int} {ids : List Int} {st : Statement}

/-! ## Texts apart -/

theorem apart_nil : Apart [] := fun _ h => nomatch h

theorem apart_cons {c : Char} (h : c.isDigit = false) : Apart (c :: s) :=
  fun _ hd => Option.mem_some.1 hd ▸ h

theorem Apart.of_prefix (h : Apart s) (hp : q <+: s) : Apart q := by
  cases q with
  | nil => exact apart_nil
  | cons c q =>
    obtain ⟨t, rfl⟩ := hp
    exact apart_cons (h c rfl)

/-- What follows a nonempty text does not matter for its first character. -/
theorem Apart.append (h : Apart (u ++ r)) (hr : Apart q) : Apart (u ++ q) := by
  cases u with
  | nil => exact hr
  | cons c u => exact apart_cons (h c rfl)

/-! ## Blanks -/

theorem isDigit_of_isBlank {c : Char} (h : isBlank c = true) : c.isDigit = false := by
  have hranges : ∀ x ∈ blankRanges, x.2 < 48 ∨ 57 < x.1 := by decide
  obtain ⟨⟨a, b⟩, hab, hle⟩ := List.any_eq_true.1 h
  have hrange := hranges _ hab
  simp only [Bool.and_eq_true, decide_eq_true_eq] at hle hrange
  rw [Char.isDigit, Bool.and_eq_false_iff]
  simp only [ge_iff_le, decide_eq_false_iff_not, UInt32.le_iff_toNat_le]
  rcases hrange with h | h
  · exact .inl (by simp; omega)
  · exact .inr (by simp; omega)

theorem isBlank_of_isDigit {c : Char} (h : c.isDigit = true) : isBlank c = false := by
  cases hb : isBlank c with
  | false => rfl
  | true =>
    rw [isDigit_of_isBlank hb] at h
    contradiction

theorem skipBlanks_append (h : Blank g) : skipBlanks (g ++ s) = skipBlanks s := by
  induction g with
  | nil => rfl
  | cons c g ih =>
    rw [List.cons_append, skipBlanks, List.dropWhile_cons, if_pos (h c (by simp))]
    exact ih fun d hd => h d (by simp [hd])

theorem skipBlanks_cons {c : Char} (h : isBlank c = false) : skipBlanks (c :: s) = c :: s := by
  rw [skipBlanks, List.dropWhile_cons, if_neg (by simp [h])]

/-- A text is its leading blanks and the rest. -/
theorem exists_blank (s : List Char) : ∃ g, Blank g ∧ s = g ++ skipBlanks s :=
  ⟨s.takeWhile isBlank, fun _ hc => List.mem_takeWhile_imp hc,
    (List.takeWhile_append_dropWhile ..).symm⟩

theorem skipBlanks_skipBlanks (s : List Char) : skipBlanks (skipBlanks s) = skipBlanks s := by
  obtain ⟨g, hg, hs⟩ := exists_blank s
  exact (skipBlanks_append hg).symm.trans (congrArg skipBlanks hs.symm)

/-! ## Numbers -/

theorem readDigits_eq_ok_iff : readDigits s = .ok (n, r) ↔
    ∃ ds, s = ds ++ r ∧ Numeral n ds ∧ n < UInt64.size ∧ Apart r := by
  constructor
  · intro h
    unfold readDigits at h
    simp only at h
    split at h
    next => contradiction
    next hne =>
      split at h
      next hlt =>
        obtain ⟨rfl, rfl⟩ := Prod.mk.inj (Except.ok.inj h)
        refine ⟨s.takeWhile Char.isDigit, (List.takeWhile_append_dropWhile ..).symm,
          ⟨by simpa using hne, fun _ hc => List.mem_takeWhile_imp hc, rfl⟩, hlt, fun c hc => ?_⟩
        have := List.head?_dropWhile_not Char.isDigit s
        rw [Option.mem_def.1 hc] at this
        simpa using this
      next => contradiction
  -- what follows is not a digit, so the reader stops where the numeral ends
  · rintro ⟨ds, rfl, hds, hn, hr⟩
    have htake : (ds ++ r).takeWhile Char.isDigit = ds := by
      rw [List.takeWhile_append_of_pos hds.isDigit]
      cases r with
      | nil => simp
      | cons c r => simp [hr c rfl]
    have hdrop : (ds ++ r).dropWhile Char.isDigit = r := by
      rw [List.dropWhile_append_of_pos hds.isDigit]
      cases r with
      | nil => rfl
      | cons c r => simp [hr c rfl]
    simp [readDigits, htake, hdrop, hds.ne_nil, hds.value, hn]

theorem Numeral.takes (h : Numeral n u) (hn : n < UInt64.size) : Takes readDigits u n :=
  fun _ hr => readDigits_eq_ok_iff.2 ⟨u, rfl, h, hn, hr⟩

/-- Digits are neither blank nor a sign. -/
theorem Numeral.exists_cons (h : Numeral n u) :
    ∃ c v, u = c :: v ∧ isBlank c = false ∧ c ≠ '+' ∧ c ≠ '-' := by
  cases u with
  | nil => exact absurd rfl h.ne_nil
  | cons c v =>
    have hc := h.isDigit c (by simp)
    refine ⟨c, v, rfl, isBlank_of_isDigit hc, ?_, ?_⟩ <;> rintro rfl <;> simp at hc

theorem readNumber_nil : readNumber [] = .error .numberExpected := by cbv

theorem NumberText.readNumber_append (h : NumberText n u) (hg : Blank g) (hn : n < UInt64.size)
    (hr : Apart r) : readNumber (g ++ u ++ r) = .ok (n, r) := by
  rw [List.append_assoc, readNumber, skipBlanks_append hg]
  cases h with
  | plain h =>
    obtain ⟨c, v, rfl, hc, hplus, -⟩ := h.exists_cons
    rw [List.cons_append, skipBlanks_cons hc]
    split
    next heq => exact absurd (List.cons.inj heq).1 hplus
    next => exact h.takes hn r hr
  | plus h =>
    rw [List.cons_append, skipBlanks_cons (by decide)]
    exact h.takes hn r hr

/-- A number can be read where blanks, a sign and digits stand. -/
theorem readNumber_eq_ok_iff : readNumber s = .ok (n, r) ↔
    ∃ g u, s = g ++ u ++ r ∧ Blank g ∧ NumberText n u ∧ n < UInt64.size ∧ Apart r := by
  constructor
  · intro h
    obtain ⟨g, hg, hs⟩ := exists_blank s
    unfold readNumber at h
    split at h
    next q hq =>
      obtain ⟨ds, rfl, hds, hn, hr⟩ := readDigits_eq_ok_iff.1 h
      exact ⟨g, '+' :: ds, by simpa [hq] using hs, hg, .plus hds, hn, hr⟩
    next =>
      obtain ⟨ds, hq, hds, hn, hr⟩ := readDigits_eq_ok_iff.1 h
      exact ⟨g, ds, by rw [List.append_assoc, ← hq]; exact hs, hg, .plain hds, hn, hr⟩
  · rintro ⟨g, u, rfl, hg, hu, hn, hr⟩
    exact hu.readNumber_append hg hn hr

theorem takes_of_readNumber (h : readNumber s = .ok (n, r)) :
    ∃ u, s = u ++ r ∧ Apart r ∧ Takes readNumber u n := by
  obtain ⟨g, u, rfl, hg, hu, hn, hr⟩ := readNumber_eq_ok_iff.1 h
  exact ⟨g ++ u, rfl, hr, fun q hq => hu.readNumber_append hg hn hq⟩

/-! ## Ids -/

/-- The first character of an id is neither blank nor that of another token. -/
theorem IdText.exists_cons (h : IdText id u) :
    ∃ c v, u = c :: v ∧ isBlank c = false ∧ c ≠ '<' ∧ c ≠ '>' ∧ c ≠ 'c' := by
  have hdigits : ∀ {n : Nat} {ds : List Char}, Numeral n ds →
      ∃ c v, ds = c :: v ∧ isBlank c = false ∧ c ≠ '<' ∧ c ≠ '>' ∧ c ≠ 'c' := by
    intro n ds h
    cases ds with
    | nil => exact absurd rfl h.ne_nil
    | cons c v =>
      have hc := h.isDigit c (by simp)
      refine ⟨c, v, rfl, isBlank_of_isDigit hc, ?_, ?_, ?_⟩ <;> rintro rfl <;> simp at hc
  cases h with
  | number h =>
    cases h with
    | plain h => exact hdigits h
    | plus => exact ⟨_, _, rfl, by decide, by decide, by decide, by decide⟩
  | minus => exact ⟨_, _, rfl, by decide, by decide, by decide, by decide⟩

theorem IdText.readId_append (h : IdText id u) (hg : Blank g) (hid : id.natAbs < 2 ^ 31)
    (hr : Apart r) : readId (g ++ u ++ r) = .ok (id, r) := by
  have hskip : skipBlanks (g ++ u ++ r) = u ++ r := by
    obtain ⟨c, v, rfl, hc, -⟩ := h.exists_cons
    rw [List.append_assoc, skipBlanks_append hg, List.cons_append, skipBlanks_cons hc]
  -- the sign is split off, and digits remain
  have hsplit : ∃ minus n ds, splitSign (u ++ r) = (minus, ds ++ r) ∧ Numeral n ds ∧
      id = if minus then -(n : Int) else n := by
    cases h with
    | number h =>
      cases h with
      | @plain ds h =>
        obtain ⟨c, v, rfl, -, hplus, hminus⟩ := h.exists_cons
        refine ⟨false, _, _, ?_, h, rfl⟩
        simp [splitSign, hplus, hminus]
      | plus h => exact ⟨false, _, _, rfl, h, rfl⟩
    | minus h => exact ⟨true, _, _, rfl, h, rfl⟩
  obtain ⟨minus, n, ds, hsign, hds, rfl⟩ := hsplit
  have hn : n < 2 ^ 31 := by split at hid <;> omega
  have hread := hds.takes (show n < UInt64.size by simp [UInt64.size]; omega) r hr
  simp only [readId, hskip, hsign, hread, bind, Except.bind]
  rw [if_pos (by omega)]
  rfl

/-- An id can be read where blanks, a sign and digits stand. -/
theorem readId_eq_ok_iff : readId s = .ok (id, r) ↔
    ∃ g u, s = g ++ u ++ r ∧ Blank g ∧ IdText id u ∧ id.natAbs < 2 ^ 31 ∧ Apart r := by
  constructor
  · intro h
    obtain ⟨g, hg, hs⟩ := exists_blank s
    simp only [readId] at h
    cases hd : readDigits (splitSign (skipBlanks s)).2 with
    | error e => simp [hd, bind, Except.bind] at h
    | ok x =>
      obtain ⟨n, q⟩ := x
      simp only [hd, bind, Except.bind] at h
      split at h
      next hn =>
        obtain ⟨rfl, rfl⟩ := Prod.mk.inj (Except.ok.inj h)
        obtain ⟨ds, hq, hds, -, hr⟩ := readDigits_eq_ok_iff.1 hd
        -- a minus, a plus, or no sign
        unfold splitSign at hq ⊢
        split at hq
        next v hv =>
          refine ⟨g, '-' :: ds, ?_, hg, .minus hds, by simp; omega, hr⟩
          rw [List.append_assoc, List.cons_append, ← hq, ← hv]
          exact hs
        next v hv =>
          refine ⟨g, '+' :: ds, ?_, hg, .number (.plus hds), by simp; omega, hr⟩
          rw [List.append_assoc, List.cons_append, ← hq, ← hv]
          exact hs
        next =>
          refine ⟨g, ds, ?_, hg, .number (.plain hds), by simp; omega, hr⟩
          rw [List.append_assoc, ← hq]
          exact hs
      next => contradiction
  · rintro ⟨g, u, rfl, hg, hu, hid, hr⟩
    exact hu.readId_append hg hid hr

/-! ## Statements -/

theorem expectChars_eq_ok_iff {w : String} {cs : List Char} :
    expectChars w cs s = .ok r ↔ s = cs ++ r := by
  induction cs generalizing s with
  | nil => simp [expectChars]
  | cons c cs ih =>
    cases s with
    | nil => simp [expectChars]
    | cons d s =>
      unfold expectChars
      split
      next h => rw [ih, h]; simp
      next h =>
        simp only [reduceCtorEq, List.cons_append, List.cons.injEq, false_iff, not_and]
        exact fun hd => absurd hd.symm h

/-- What is read of a statement depends on the text after its leading blanks. -/
theorem readStatement_congr (h : skipBlanks s = skipBlanks q) :
    readStatement ids s = readStatement ids q := by
  rw [readStatement.eq_def ids s, readStatement.eq_def ids q]
  dsimp only
  generalize skipBlanks s = x at h ⊢
  generalize skipBlanks q = y at h ⊢
  subst h
  rfl

theorem readStatement_blank (h : Blank g) : readStatement ids (g ++ s) = readStatement ids s :=
  readStatement_congr (skipBlanks_append h)

theorem readStatement_atMost (h : skipBlanks s = '<' :: '=' :: q) (hk : readNumber q = .ok (n, r)) :
    readStatement ids s = .ok (.atMost ids.reverse n, r) := by
  have hword : expect "<=" ('<' :: '=' :: q) = .ok q := expectChars_eq_ok_iff.2 rfl
  rw [readStatement]
  split
  next q' hq =>
    obtain rfl := (List.cons.inj (h.symm.trans hq)).2
    simp [hword, hk, bind, Except.bind, pure, Except.pure]
  next hq => simp [h] at hq
  next hlt _ => exact absurd h (hlt _)

theorem readStatement_atLeast (h : skipBlanks s = '>' :: '=' :: q)
    (hk : readNumber q = .ok (n, r)) :
    readStatement ids s = .ok (.atLeast ids.reverse n, r) := by
  have hword : expect ">=" ('>' :: '=' :: q) = .ok q := expectChars_eq_ok_iff.2 rfl
  rw [readStatement]
  split
  next hq => simp [h] at hq
  next q' hq =>
    obtain rfl := (List.cons.inj (h.symm.trans hq)).2
    simp [hword, hk, bind, Except.bind, pure, Except.pure]
  next hgt => exact absurd h (hgt _)

/-- An id is taken in, or ends a clause. -/
theorem readStatement_id (h : readId s = .ok (id, r)) : readStatement ids s =
    if id = 0 then .ok (.clause ids.reverse, r) else readStatement (id :: ids) r := by
  obtain ⟨g, u, rfl, hg, hu, hid, hr⟩ := readId_eq_ok_iff.1 h
  obtain ⟨c, v, rfl, hc, hlt, hgt, -⟩ := hu.exists_cons
  have hskip : skipBlanks (g ++ c :: v ++ r) = c :: v ++ r := by
    rw [List.append_assoc, skipBlanks_append hg, List.cons_append, skipBlanks_cons hc]
  have hread : readId (c :: v ++ r) = .ok (id, r) := by
    rw [← List.nil_append (c :: v)]
    exact hu.readId_append (fun _ h => nomatch h) hid hr
  rw [readStatement]
  split
  next hq => exact absurd (List.cons.inj (hskip.symm.trans hq)).1 hlt
  next hq => exact absurd (List.cons.inj (hskip.symm.trans hq)).1 hgt
  next =>
    split
    next heq =>
      rw [hskip, hread] at heq
      contradiction
    next heq =>
      rw [hskip, hread] at heq
      obtain ⟨rfl, rfl⟩ := Prod.mk.inj (Except.ok.inj heq)
      rfl

/-- A bound after a fixed word can be read on the same characters. -/
theorem takes_of_bound {w : String} {f : Nat → Statement} (h : (do
      let r ← expect w s
      let (k, r) ← readNumber r
      return (f k, r) : Except ReadError (Statement × List Char)) = .ok (st, r)) :
    ∃ k u, s = w.toList ++ (u ++ r) ∧ st = f k ∧ Apart r ∧ Takes readNumber u k := by
  cases he : expect w s with
  | error e => simp [he, bind, Except.bind] at h
  | ok q =>
    cases hn : readNumber q with
    | error e => simp [he, hn, bind, Except.bind] at h
    | ok x =>
      simp only [he, hn, bind, Except.bind, pure, Except.pure, Except.ok.injEq,
        Prod.mk.injEq] at h
      obtain ⟨rfl, rfl⟩ := h
      obtain ⟨u, rfl, hr, htakes⟩ := takes_of_readNumber hn
      exact ⟨x.1, u, expectChars_eq_ok_iff.1 he, rfl, hr, htakes⟩

/-- A statement is read off the same characters whatever follows. -/
theorem takes_of_readStatement (h : readStatement ids s = .ok (st, r)) :
    ∃ u, s = u ++ r ∧ Apart r ∧ Takes (readStatement ids) u st := by
  fun_induction readStatement ids s with
  | case1 ids s q hq =>
    obtain ⟨g, hg, hs⟩ := exists_blank s
    obtain ⟨k, u, hu, rfl, hr, htakes⟩ := takes_of_bound h
    obtain rfl : q = '=' :: (u ++ r) := (List.cons.inj hu).2
    refine ⟨g ++ '<' :: '=' :: u, by simpa [hq] using hs, hr, fun r' hr' => ?_⟩
    refine readStatement_atMost (q := u ++ r') ?_ (htakes r' hr')
    rw [List.append_assoc, skipBlanks_append hg]
    exact skipBlanks_cons (by decide)
  | case2 ids s q hq =>
    obtain ⟨g, hg, hs⟩ := exists_blank s
    obtain ⟨k, u, hu, rfl, hr, htakes⟩ := takes_of_bound h
    obtain rfl : q = '=' :: (u ++ r) := (List.cons.inj hu).2
    refine ⟨g ++ '>' :: '=' :: u, by simpa [hq] using hs, hr, fun r' hr' => ?_⟩
    refine readStatement_atLeast (q := u ++ r') ?_ (htakes r' hr')
    rw [List.append_assoc, skipBlanks_append hg]
    exact skipBlanks_cons (by decide)
  | case3 => contradiction
  -- a zero closes a clause
  | case4 ids s q _ _ hread =>
    obtain ⟨rfl, rfl⟩ := Prod.mk.inj (Except.ok.inj h)
    obtain ⟨g, hg, hs⟩ := exists_blank s
    obtain ⟨g', u, hu, hg', hid, hlt, hr⟩ := readId_eq_ok_iff.1 hread
    refine ⟨g ++ (g' ++ u), by rw [List.append_assoc, ← hu]; exact hs, hr, fun r' hr' => ?_⟩
    rw [List.append_assoc, readStatement_blank hg,
      readStatement_id (hid.readId_append hg' hlt hr'), if_pos rfl]
  -- another id, and then what the rest is
  | case5 ids s id q hne _ _ hread _ ih =>
    obtain ⟨g, hg, hs⟩ := exists_blank s
    obtain ⟨g', u, hu, hg', hid, hlt, hq⟩ := readId_eq_ok_iff.1 hread
    obtain ⟨v, rfl, hr, htakes⟩ := ih h
    refine ⟨g ++ (g' ++ u ++ v), ?_, hr, fun r' hr' => ?_⟩
    · rw [List.append_assoc, List.append_assoc, ← hu]
      exact hs
    · rw [List.append_assoc, readStatement_blank hg, List.append_assoc,
        readStatement_id (hid.readId_append hg' hlt (hq.append hr')), if_neg hne]
      exact htakes r' hr'

/-! ## Comments -/

theorem skipLine_append (h : '\n' ∉ u) : skipLine (u ++ '\n' :: s) = s := by
  rw [skipLine, List.dropWhile_append_of_pos]
  · simp
  · exact fun c hc => decide_eq_true fun hn => h (hn ▸ hc)

theorem skipLine_of_not_mem (h : '\n' ∉ u) : skipLine u = [] := by
  rw [skipLine, ← List.append_nil u, List.dropWhile_append_of_pos]
  · rfl
  · exact fun c hc => decide_eq_true fun hn => h (hn ▸ hc)

/-- The end of the line stands before what follows the line. -/
theorem exists_line (s : List Char) :
    skipLine s = [] ∨ ∃ u, '\n' ∉ u ∧ s = u ++ '\n' :: skipLine s := by
  by_cases hn : '\n' ∈ s
  · obtain ⟨u, t, rfl, hu⟩ := List.eq_append_cons_of_mem hn
    exact .inr ⟨u, hu, by rw [skipLine_append hu]⟩
  · exact .inl (skipLine_of_not_mem hn)

/-! ## The list of statements -/

section

variable {done : Array Statement}

theorem readStatements_congr (h : skipBlanks s = skipBlanks q) :
    readStatements done s = readStatements done q := by
  rw [readStatements.eq_def done s, readStatements.eq_def done q]
  dsimp only
  generalize skipBlanks s = x at h ⊢
  generalize skipBlanks q = y at h ⊢
  subst h
  rfl

theorem readStatements_comment (h : skipBlanks s = 'c' :: q) :
    readStatements done s = readStatements done (skipLine q) := by
  rw [readStatements]
  split
  next hq => simp [h] at hq
  next hq => rw [(List.cons.inj (h.symm.trans hq)).2]
  next hc => exact absurd h (hc _)

theorem readStatements_append (h : Takes (readStatement []) u st) (hr : Apart r) :
    readStatements done (u ++ r) = readStatements (done.push st) r :=
  readStatements_of_readStatement ((readStatement_congr (skipBlanks_skipBlanks _)).trans (h r hr))

/-- The statements before an error are those of a text without errors that comes first. -/
theorem exists_prefix_of_readStatements :
    ∃ p, p <+: s ∧ readStatements done p = ((readStatements done s).1, .ok ()) := by
  fun_induction readStatements done s with
  | case1 done s hq => exact ⟨s, List.prefix_rfl, readStatements_of_blank hq⟩
  | case2 done s q hq _ ih =>
    obtain ⟨p, hp, hread⟩ := ih
    obtain ⟨g, hg, hs⟩ := exists_blank s
    -- the comment is the rest of the text, or a line of it
    rcases exists_line q with hnil | ⟨u, hu, hline⟩
    · rw [hnil, List.prefix_nil] at hp
      rw [hp] at hread
      refine ⟨s, List.prefix_rfl, ?_⟩
      rw [readStatements_comment hq, hnil]
      simpa [hnil] using hread
    · have hskip : skipBlanks (g ++ 'c' :: (u ++ '\n' :: p)) = 'c' :: (u ++ '\n' :: p) :=
        (skipBlanks_append hg).trans (skipBlanks_cons (by decide))
      refine ⟨g ++ 'c' :: (u ++ '\n' :: p), ?_, ?_⟩
      · rw [hs, hq, List.prefix_append_right_inj, hline]
        simpa using hp
      · rw [readStatements_comment hskip, skipLine_append hu, hread]
  | case3 done s => exact ⟨[], List.nil_prefix, readStatements_of_blank rfl⟩
  | case4 done s st r _ _ hst _ ih =>
    obtain ⟨p, hp, hread⟩ := ih
    obtain ⟨g, hg, hs⟩ := exists_blank s
    -- a statement is read from a part of the text, whatever follows it
    obtain ⟨u, hu, hr, htakes⟩ := takes_of_readStatement hst
    refine ⟨g ++ (u ++ p), ?_, ?_⟩
    · rw [hs, hu, List.prefix_append_right_inj, List.prefix_append_right_inj]
      exact hp
    · rw [readStatements_congr (skipBlanks_append hg),
        readStatements_append htakes (hr.of_prefix hp), hread]

end

/-! ## The header -/

section

variable {vars count : Nat}

theorem readHeader_congr (h : skipBlanks s = skipBlanks q) : readHeader s = readHeader q := by
  rw [readHeader.eq_def s, readHeader.eq_def q]
  dsimp only
  generalize skipBlanks s = x at h ⊢
  generalize skipBlanks q = y at h ⊢
  subst h
  rfl

theorem readHeader_nil : readHeader [] = .error (.wordExpected "p cnf") := by cbv

theorem readHeader_comment (h : skipBlanks s = 'c' :: q) :
    readHeader s = readHeader (skipLine q) := by
  rw [readHeader]
  split
  next hq => rw [(List.cons.inj (h.symm.trans hq)).2]
  next hc => exact absurd h (hc _)

/-- The word that begins a header. -/
inductive HeaderWord : List Char → Prop
  | cnf : HeaderWord "p cnf".toList
  | cnfPlus : HeaderWord "p cnf+".toList

/-- The header is a fixed word, which may be marked with a plus sign, and two numbers. A plus
sign right behind the plain word would be the mark. -/
theorem readHeader_word {w q' : List Char} (hw : HeaderWord w) (h : skipBlanks s = w ++ q)
    (hq : w = "p cnf".toList → q.head? ≠ some '+') (hvars : readNumber q = .ok (vars, q'))
    (hcount : readNumber q' = .ok (count, r)) : readHeader s = .ok (vars, count, r) := by
  rw [readHeader]
  split
  next hc =>
    rw [h] at hc
    cases hw <;> exact absurd (List.cons.inj hc).1 (by decide)
  next =>
    cases hw with
    | cnf =>
      have hword : expect "p cnf" (skipBlanks s) = .ok q := expectChars_eq_ok_iff.2 h
      cases q with
      | nil =>
        rw [readNumber_nil] at hvars
        contradiction
      | cons c t =>
        -- a plus sign would belong to the word
        have hc : c ≠ '+' := fun hc => hq rfl (hc ▸ rfl)
        simp [hword, hvars, hcount, hc, bind, Except.bind, pure, Except.pure]
    | cnfPlus =>
      have hword : expect "p cnf" (skipBlanks s) = .ok ('+' :: q) := expectChars_eq_ok_iff.2 h
      simp only [hword, hvars, hcount, bind, Except.bind, pure, Except.pure]

/-- A header that was read consists of such a word and two numbers. -/
theorem exists_word_of_readHeader (h : readHeader s = .ok (vars, count, r))
    (hc : ∀ q, skipBlanks s ≠ 'c' :: q) : ∃ w q q', HeaderWord w ∧ skipBlanks s = w ++ q ∧
      (w = "p cnf".toList → q.head? ≠ some '+') ∧ readNumber q = .ok (vars, q') ∧
      readNumber q' = .ok (count, r) := by
  rw [readHeader] at h
  split at h
  next hq => exact absurd hq (hc _)
  next =>
    simp only [bind, Except.bind] at h
    split at h
    next => contradiction
    next q hword =>
      split at h
      next => contradiction
      next x hvars =>
        split at h
        next => contradiction
        next y hcount =>
          obtain ⟨rfl, hrest⟩ := Prod.mk.inj (Except.ok.inj h)
          obtain ⟨rfl, rfl⟩ := Prod.mk.inj hrest
          have hs := expectChars_eq_ok_iff.1 hword
          split at hvars
          next t =>
            exact ⟨_, t, _, .cnfPlus, hs, fun hw => absurd hw (by decide), hvars, hcount⟩
          next hplus =>
            refine ⟨_, q, _, .cnf, hs, fun _ hq => ?_, hvars, hcount⟩
            obtain ⟨t, ht⟩ := List.head?_eq_some_iff.1 hq
            exact hplus t ht

/-- The header is read off the same characters whatever follows. -/
theorem takes_of_readHeader (h : readHeader s = .ok (vars, count, r)) :
    ∃ u, s = u ++ r ∧ Apart r ∧ ∀ q, Apart q → readHeader (u ++ q) = .ok (vars, count, q) := by
  induction s using readHeader.induct with
  -- a comment before the header is skipped, up to the end of its line
  | case1 s q hq _ ih =>
    rw [readHeader_comment hq] at h
    obtain ⟨u, hu, hr, htakes⟩ := ih h
    obtain ⟨g, hg, hs⟩ := exists_blank s
    rcases exists_line q with hnil | ⟨v, hv, hline⟩
    · rw [hnil, readHeader_nil] at h
      contradiction
    · refine ⟨g ++ 'c' :: (v ++ '\n' :: u), ?_, hr, fun q' hq' => ?_⟩
      · rw [hs, hq, hline, hu]
        simp
      · have hskip : skipBlanks (g ++ 'c' :: (v ++ '\n' :: u) ++ q') =
            'c' :: (v ++ '\n' :: (u ++ q')) := by
          rw [List.append_assoc, skipBlanks_append hg, List.cons_append,
            skipBlanks_cons (by decide)]
          simp
        rw [readHeader_comment hskip, skipLine_append hv, htakes q' hq']
  | case2 s hne =>
    obtain ⟨g, hg, hs⟩ := exists_blank s
    obtain ⟨w, q, q', hw, hq, hplus, hvars, hcount⟩ := exists_word_of_readHeader h hne
    obtain ⟨u, rfl, hq', htakes⟩ := takes_of_readNumber hvars
    obtain ⟨u', rfl, hr, htakes'⟩ := takes_of_readNumber hcount
    refine ⟨g ++ (w ++ (u ++ u')), by simpa [hq] using hs, hr, fun x hx => ?_⟩
    have hskip : skipBlanks (g ++ (w ++ (u ++ u')) ++ x) = w ++ (u ++ (u' ++ x)) := by
      rw [List.append_assoc, skipBlanks_append hg]
      cases hw <;> simp [skipBlanks_cons (show isBlank 'p' = false by decide)]
    -- a plus behind the first word would belong to it
    refine readHeader_word hw hskip (fun h => ?_) (htakes _ (hq'.append hx)) (htakes' x hx)
    cases u with
    | nil =>
      have := htakes [] apart_nil
      rw [List.nil_append, readNumber_nil] at this
      contradiction
    | cons c u => exact hplus h

end

end CnfPlus

end CardSat
