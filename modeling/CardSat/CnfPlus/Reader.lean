import CardSat.Text.Blank
import CardSat.Text.Decimal

set_option autoImplicit false

/-! # Reading CNF+ text

The text form of clauses and cardinality constraints. A header `p cnf` or `p cnf+` with the
numbers of variables and constraints is followed by the constraints: literal ids, closed by
`0` for a clause, by `<= k` for an at-most and by `>= k` for an at-least constraint. Lines that
begin with `c` between constraints are comments.

`read` gives the constraints up to the first error, and the error. Every function of the
reader takes the rest of the text and gives a shorter rest back, which bounds the loops.
-/

namespace CardSat

namespace CnfPlus

/-- A constraint over literal ids: a variable's id is positive, and its negation has the id
with the opposite sign. -/
inductive Statement where
  | clause (ids : List Int)
  | atMost (ids : List Int) (bound : Nat)
  | atLeast (ids : List Int) (bound : Nat)
  deriving DecidableEq

/-- The literal ids of a statement. -/
def Statement.ids : Statement → List Int
  | clause ids | atMost ids _ | atLeast ids _ => ids

/-- Why a text cannot be read. -/
inductive ReadError where
  /-- The bytes are not text. -/
  | notText
  /-- A fixed word is missing. -/
  | wordExpected (word : String)
  /-- A number has no digits. -/
  | numberExpected
  /-- A number does not fit a 64-bit word. -/
  | numberTooBig
  /-- The number of a literal does not fit a signed 32-bit word. -/
  | literalTooBig (n : Nat)
  /-- The header declares another number of constraints. -/
  | constraintCount (declared found : Nat)
  /-- The header declares fewer variables than are used. -/
  | variableCount (declared found : Nat)
  deriving DecidableEq

/-- The text of an error. -/
def ReadError.message : ReadError → String
  | notText => "stream did not contain valid UTF-8"
  | wordExpected w => "PARSE ERROR! failed to consume; expected '" ++ w ++ "'"
  | numberExpected => "PARSE ERROR! int expected"
  | numberTooBig => "PARSE ERROR! int out of range"
  | literalTooBig n => "PARSE ERROR! literal " ++ toString n ++ " out of range"
  | constraintCount d f => "PARSE ERROR! DIMACS header mismatch: " ++ toString d ++
      " clauses declared, " ++ toString f ++ " found"
  | variableCount d f => "PARSE ERROR! DIMACS header mismatch: " ++ toString d ++
      " vars declared, " ++ toString f ++ " discovered"

/-! ## Tokens -/

/-- The text after leading blanks. -/
def skipBlanks (s : List Char) : List Char := s.dropWhile isBlank

/-- The text after the end of the line. -/
def skipLine (s : List Char) : List Char := (s.dropWhile (· ≠ '\n')).drop 1

/-- Reads the given characters. -/
def expectChars (word : String) : (chars s : List Char) → Except ReadError (List Char)
  | [], s => .ok s
  | c :: cs, d :: s => if c = d then expectChars word cs s else .error (.wordExpected word)
  | _ :: _, [] => .error (.wordExpected word)

/-- Reads a fixed word. -/
def expect (word : String) (s : List Char) : Except ReadError (List Char) :=
  expectChars word word.toList s

/-- Reads a run of decimal digits as a 64-bit word. -/
def readDigits (s : List Char) : Except ReadError (Nat × List Char) :=
  let ds := s.takeWhile Char.isDigit
  if ds.isEmpty then .error .numberExpected
  else if digitsValue ds < UInt64.size then .ok (digitsValue ds, s.dropWhile Char.isDigit)
  else .error .numberTooBig

/-- Reads a number, which may have a plus sign. -/
def readNumber (s : List Char) : Except ReadError (Nat × List Char) :=
  match skipBlanks s with
  | '+' :: r => readDigits r
  | r => readDigits r

/-- Reads the id of a literal, which may have a sign. -/
def readId (s : List Char) : Except ReadError (Int × List Char) := do
  let (minus, r) := splitSign (skipBlanks s)
  let (n, r) ← readDigits r
  if n < 0x80000000 then return (if minus then -(n : Int) else n, r)
  else throw (.literalTooBig n)

/-! ## Progress

What a token reader gives back is shorter than what it was given. -/

theorem length_dropWhile_le (p : Char → Bool) (s : List Char) :
    (s.dropWhile p).length ≤ s.length := (List.dropWhile_suffix p).length_le

theorem length_dropWhile_lt {p : Char → Bool} {s : List Char}
    (h : (s.takeWhile p).isEmpty = false) : (s.dropWhile p).length < s.length := by
  have happ := congrArg List.length (List.takeWhile_append_dropWhile (p := p) (l := s))
  rw [List.length_append] at happ
  have : 0 < (s.takeWhile p).length := by
    cases hs : s.takeWhile p with
    | nil => simp [hs] at h
    | cons c r => simp
  omega

theorem length_skipBlanks_le (s : List Char) : (skipBlanks s).length ≤ s.length :=
  length_dropWhile_le _ s

theorem length_skipLine_le (s : List Char) : (skipLine s).length ≤ s.length := by
  have := length_dropWhile_le (· ≠ '\n') s
  simp only [skipLine, List.length_drop]
  omega

theorem length_readDigits_lt {s r : List Char} {n : Nat} (h : readDigits s = .ok (n, r)) :
    r.length < s.length := by
  unfold readDigits at h
  cases hs : (s.takeWhile Char.isDigit).isEmpty with
  | true => simp [hs] at h
  | false =>
    simp only [hs] at h
    split at h
    · contradiction
    · split at h
      · obtain ⟨_, rfl⟩ := Prod.mk.injEq .. ▸ Except.ok.inj h
        exact length_dropWhile_lt hs
      · contradiction

theorem length_splitSign_le (s : List Char) : (splitSign s).2.length ≤ s.length := by
  unfold splitSign
  split <;> simp

theorem length_readId_lt {s r : List Char} {id : Int} (h : readId s = .ok (id, r)) :
    r.length < s.length := by
  unfold readId at h
  have hb := length_skipBlanks_le s
  have hs := length_splitSign_le (skipBlanks s)
  cases hd : readDigits (splitSign (skipBlanks s)).2 with
  | error e => simp [hd, bind, Except.bind] at h
  | ok nr =>
    obtain ⟨n, q⟩ := nr
    have hq := length_readDigits_lt hd
    simp only [hd, bind, Except.bind] at h
    split at h
    · obtain ⟨_, rfl⟩ := Prod.mk.injEq .. ▸ Except.ok.inj h
      omega
    · contradiction

/-! ## Statements -/

theorem length_rest_lt {s q r : List Char} {id : Int} (hq : skipBlanks s = q)
    (h : readId q = .ok (id, r)) : r.length < s.length := by
  have h₁ := length_skipBlanks_le s
  have h₂ := length_readId_lt h
  rw [hq] at h₁
  omega

/-- Reads a statement, `ids` being the literals read so far, last one first. -/
def readStatement (ids : List Int) (s : List Char) : Except ReadError (Statement × List Char) :=
  match hq : skipBlanks s with
  | '<' :: r => do
    let r ← expect "<=" ('<' :: r)
    let (k, r) ← readNumber r
    return (.atMost ids.reverse k, r)
  | '>' :: r => do
    let r ← expect ">=" ('>' :: r)
    let (k, r) ← readNumber r
    return (.atLeast ids.reverse k, r)
  | q =>
    match hid : readId q with
    | .error e => .error e
    | .ok (id, r) =>
      have := length_rest_lt hq hid
      if id = 0 then .ok (.clause ids.reverse, r) else readStatement (id :: ids) r
termination_by s.length

theorem length_expectChars_le {w : String} {cs s r : List Char}
    (h : expectChars w cs s = .ok r) : r.length ≤ s.length := by
  induction cs generalizing s with
  | nil => cases h; exact Nat.le_refl _
  | cons c cs ih =>
    cases s with
    | nil => contradiction
    | cons d s =>
      unfold expectChars at h
      split at h
      · have := ih h
        simp only [List.length_cons]
        omega
      · contradiction

theorem length_readNumber_lt {s r : List Char} {n : Nat} (h : readNumber s = .ok (n, r)) :
    r.length < s.length := by
  have hb := length_skipBlanks_le s
  unfold readNumber at h
  split at h
  · next q hq =>
    have := length_readDigits_lt h
    simp only [hq, List.length_cons] at hb
    omega
  · have := length_readDigits_lt h
    omega

/-- A bound after a fixed word leaves less text. -/
theorem length_bound_lt {w : String} {s r : List Char} {f : Nat → Statement}
    {st : Statement} (h : (do
      let r ← expect w s
      let (k, r) ← readNumber r
      return (f k, r) : Except ReadError (Statement × List Char)) = .ok (st, r)) :
    r.length < s.length := by
  cases he : expect w s with
  | error e => simp [he, bind, Except.bind] at h
  | ok q =>
    have h₁ := length_expectChars_le he
    cases hn : readNumber q with
    | error e => simp [he, hn, bind, Except.bind] at h
    | ok kr =>
      obtain ⟨k', r'⟩ := kr
      have h₂ := length_readNumber_lt hn
      simp only [he, hn, bind, Except.bind, pure, Except.pure, Except.ok.injEq,
        Prod.mk.injEq] at h
      obtain ⟨_, rfl⟩ := h
      omega

theorem length_readStatement_lt {ids : List Int} {s r : List Char} {st : Statement}
    (h : readStatement ids s = .ok (st, r)) : r.length < s.length := by
  fun_induction readStatement ids s with
  | case1 ids s q hq =>
    have hb := length_skipBlanks_le s
    have := length_bound_lt h
    rw [hq] at hb
    omega
  | case2 ids s q hq =>
    have hb := length_skipBlanks_le s
    have := length_bound_lt h
    rw [hq] at hb
    omega
  | case3 => contradiction
  | case4 ids s q _ _ _ hlt =>
    simp only [Except.ok.injEq, Prod.mk.injEq] at h
    exact h.2 ▸ hlt
  | case5 ids s id q _ _ _ _ hlt ih =>
    have := ih h
    omega

/-! ## The whole text -/

/-- Reads statements up to the end of the text or the first error, after those already read. -/
def readStatements (done : Array Statement) (s : List Char) :
    Array Statement × Except ReadError Unit :=
  match hq : skipBlanks s with
  | [] => (done, .ok ())
  | 'c' :: r =>
    have : (skipLine r).length < s.length := by
      have h₁ := length_skipBlanks_le s
      have h₂ := length_skipLine_le r
      rw [hq, List.length_cons] at h₁
      omega
    readStatements done (skipLine r)
  | q =>
    match hst : readStatement [] q with
    | .error e => (done, .error e)
    | .ok (st, r) =>
      have : r.length < s.length := by
        have h₁ := length_skipBlanks_le s
        have h₂ := length_readStatement_lt hst
        rw [hq] at h₁
        omega
      readStatements (done.push st) r
termination_by s.length

/-- Reads comments and the header; the answer is the declared numbers of variables and
constraints. -/
def readHeader (s : List Char) : Except ReadError (Nat × Nat × List Char) :=
  match hq : skipBlanks s with
  | 'c' :: r =>
    have : (skipLine r).length < s.length := by
      have h₁ := length_skipBlanks_le s
      have h₂ := length_skipLine_le r
      rw [hq, List.length_cons] at h₁
      omega
    readHeader (skipLine r)
  | q => do
    let r ← expect "p cnf" q
    let (vars, r) ← readNumber (match r with | '+' :: r => r | r => r)
    let (count, r) ← readNumber r
    return (vars, count, r)
termination_by s.length

/-- The number of distinct variables that statements use. -/
def variablesUsed (statements : List Statement) : Nat :=
  ((statements.flatMap Statement.ids).map Int.natAbs).mergeSort.eraseReps.length

/-- Compares the header with the statements: their number has to be the declared one, and no
more variables may be used than declared. -/
def checkHeader (vars count : Nat) (statements : List Statement) : Except ReadError Unit := do
  if count ≠ statements.length then throw (.constraintCount count statements.length)
  let used := variablesUsed statements
  if vars < used then throw (.variableCount vars used)

/-- The statements of a text up to its first error, and the error. -/
structure Reading where
  statements : List Statement
  outcome : Except ReadError Unit

/-- Reads a text. A `strict` reading compares the header with the statements. -/
def read (strict : Bool) (s : List Char) : Reading :=
  match readHeader s with
  | .error e => ⟨[], .error e⟩
  | .ok (vars, count, r) =>
    let (done, outcome) := readStatements #[] r
    let statements := done.toList
    match outcome with
    | .error e => ⟨statements, .error e⟩
    | .ok () => ⟨statements, if strict then checkHeader vars count statements else .ok ()⟩

/-- Reads the bytes of a text. -/
def readBytes (strict : Bool) (bytes : ByteArray) : Reading :=
  match String.fromUTF8? bytes with
  | none => ⟨[], .error .notText⟩
  | some s => read strict s.toList

end CnfPlus

end CardSat
