import CardSat.Proofs.CnfPlus.Prefix
import Mathlib

set_option autoImplicit false

/-! # Texts and the statements they render

`Rendering` says how statements are written: a header with two numbers and the statements one after
another, every token followed by a gap, comment lines before the header and between statements.
Reading such a text gives the statements back (`Rendering.read`), and a text that breaks off with an
error was read as far as one of its prefixes that has none (`exists_prefix_of_read`).

The numbers of a text are limited by the words of the machine, those of the header too: a text whose
header holds a greater number is refused (`refused_of_headerBeyondWord`).

## How the proof goes

The grammar is an inductive family with the statements as its index, so reading back is an induction
on the rendering, and each constructor is one round of the reader. What follows a token in a
rendering is never a digit, which is the condition under which tokens are read alike in any
surroundings (`Takes`).

For texts that break off the statements that were read before the error are cut out of the text.
Together with the header they are a rendering, up to its last gap, of the statements that were read,
and this rendering is read without an error.
-/

namespace CardSat

namespace CnfPlus

/-! ## The grammar -/

/-- What separates tokens: a nonempty run of blanks. -/
structure Gap (g : List Char) : Prop where
  ne_nil : g ≠ []
  blank : Blank g

/-- What may stand before the header and between statements: blanks and comment lines. -/
inductive Filler : List Char → Prop
  | nil : Filler []
  | blank {c : Char} {s : List Char} (hc : isBlank c = true) (hs : Filler s) : Filler (c :: s)
  | comment {u s : List Char} (hu : '\n' ∉ u) (hs : Filler s) : Filler ('c' :: u ++ '\n' :: s)

/-- The ids of a statement, each followed by a gap. -/
inductive IdsText : List Int → List Char → Prop
  | nil : IdsText [] []
  | cons {id : Int} {ids : List Int} {t g u : List Char} (hid : IdText id t) (hg : Gap g)
      (hids : IdsText ids u) : IdsText (id :: ids) (t ++ (g ++ u))

/-- A statement: ids, and what closes them. -/
inductive StatementText : Statement → List Char → Prop
  | clause {ids : List Int} {u z g : List Char} (hids : IdsText ids u) (hz : IdText 0 z)
      (hg : Gap g) : StatementText (.clause ids) (u ++ (z ++ g))
  | atMost {ids : List Int} {k : Nat} {u g t g' : List Char} (hids : IdsText ids u) (hg : Gap g)
      (hk : NumberText k t) (hg' : Gap g') :
      StatementText (.atMost ids k) (u ++ ("<=".toList ++ (g ++ (t ++ g'))))
  | atLeast {ids : List Int} {k : Nat} {u g t g' : List Char} (hids : IdsText ids u) (hg : Gap g)
      (hk : NumberText k t) (hg' : Gap g') :
      StatementText (.atLeast ids k) (u ++ (">=".toList ++ (g ++ (t ++ g'))))

/-- Statements one after another. -/
inductive BodyText : List Statement → List Char → Prop
  | nil {f : List Char} (hf : Filler f) : BodyText [] f
  | cons {st : Statement} {sts : List Statement} {f t u : List Char} (hf : Filler f)
      (hst : StatementText st t) (hsts : BodyText sts u) : BodyText (st :: sts) (f ++ (t ++ u))

/-- A text that renders statements behind a header with the numbers `vars` and `count`. -/
inductive Rendering (vars count : Nat) (sts : List Statement) : List Char → Prop
  | mk {f w g t g' t' g'' u : List Char} (hf : Filler f) (hw : HeaderWord w) (hg : Gap g)
      (hvars : NumberText vars t) (hg' : Gap g') (hcount : NumberText count t') (hg'' : Gap g'')
      (hbody : BodyText sts u) :
      Rendering vars count sts (f ++ (w ++ (g ++ (t ++ (g' ++ (t' ++ (g'' ++ u)))))))

/-- The bound of a cardinality constraint; zero for a clause. -/
def Statement.bound : Statement → Nat
  | clause _ => 0
  | atMost _ bound | atLeast _ bound => bound

/-- A statement whose numbers fit the words of the machine. -/
structure Statement.Writable (st : Statement) : Prop where
  isId : ∀ id ∈ st.ids, IsId id
  bound_lt : st.bound < UInt64.size

variable {s r u g f : List Char} {vars count : Nat} {ids : List Int} {st : Statement}
  {sts : List Statement}

/-! ## Rendered texts are read -/

theorem Gap.apart (h : Gap g) : Apart (g ++ s) := by
  cases g with
  | nil => exact absurd rfl h.ne_nil
  | cons c g => exact apart_cons (isDigit_of_isBlank (h.blank c (by simp)))

theorem blank_nil : Blank [] := fun _ h => nomatch h

/-- Ids are collected, the last one first. -/
theorem IdsText.readStatement (h : IdsText ids u) (hids : ∀ id ∈ ids, IsId id)
    (rev : List Int) : readStatement rev (u ++ r) = readStatement (ids.reverse ++ rev) r := by
  induction h generalizing rev with
  | nil => rfl
  | @cons id ids t g u hid hg _ ih =>
    have hread : readId (t ++ (g ++ u) ++ r) = .ok (id, g ++ u ++ r) := by
      rw [List.append_assoc]
      refine hid.readId_append blank_nil (hids id (by simp)).natAbs_lt ?_
      rw [List.append_assoc]
      exact hg.apart
    rw [readStatement_id hread, if_neg (hids id (by simp)).ne_zero, List.append_assoc,
      readStatement_blank hg.blank, ih fun id hid => hids id (by simp [hid])]
    simp

/-- A statement is read up to the gap behind it. -/
theorem StatementText.exists_takes (h : StatementText st u) (hst : st.Writable) :
    ∃ v g, u = v ++ g ∧ Gap g ∧ Takes (readStatement []) v st := by
  have hbound : ∀ {k : Nat} {g t r : List Char}, Gap g → NumberText k t → k < UInt64.size →
      Apart r → readNumber (g ++ (t ++ r)) = .ok (k, r) := fun hg ht hk hr => by
    rw [← List.append_assoc]
    exact ht.readNumber_append hg.blank hk hr
  cases h with
  | @clause ids u z g hids hz hg =>
    refine ⟨u ++ z, g, by simp, hg, fun r hr => ?_⟩
    have hread : readId (z ++ r) = .ok (0, r) := hz.readId_append blank_nil (by decide) hr
    rw [List.append_assoc, hids.readStatement hst.isId, readStatement_id hread, if_pos rfl]
    simp
  | @atMost ids k u g t g' hids hg hk hg' =>
    refine ⟨u ++ ("<=".toList ++ (g ++ t)), g', by simp, hg', fun r hr => ?_⟩
    have hskip : skipBlanks ("<=".toList ++ (g ++ (t ++ r))) = '<' :: '=' :: (g ++ (t ++ r)) :=
      skipBlanks_cons (by decide)
    simp only [List.append_assoc]
    rw [hids.readStatement hst.isId, readStatement_atMost hskip (hbound hg hk hst.bound_lt hr)]
    simp
  | @atLeast ids k u g t g' hids hg hk hg' =>
    refine ⟨u ++ (">=".toList ++ (g ++ t)), g', by simp, hg', fun r hr => ?_⟩
    have hskip : skipBlanks (">=".toList ++ (g ++ (t ++ r))) = '>' :: '=' :: (g ++ (t ++ r)) :=
      skipBlanks_cons (by decide)
    simp only [List.append_assoc]
    rw [hids.readStatement hst.isId, readStatement_atLeast hskip (hbound hg hk hst.bound_lt hr)]
    simp

theorem Filler.readStatements_append (h : Filler f) {done : Array Statement} :
    readStatements done (f ++ s) = readStatements done s := by
  induction h with
  | nil => rfl
  | @blank c f hc _ ih =>
    rw [← ih]
    exact readStatements_congr (skipBlanks_append (g := [c]) (by simpa [Blank] using hc))
  | @comment u f hu _ ih =>
    have hskip : skipBlanks ('c' :: u ++ '\n' :: f ++ s) = 'c' :: (u ++ '\n' :: (f ++ s)) := by
      rw [List.append_assoc]
      exact skipBlanks_cons (by decide)
    rw [readStatements_comment hskip, skipLine_append hu, ih]

theorem Filler.readHeader_append (h : Filler f) : readHeader (f ++ s) = readHeader s := by
  induction h with
  | nil => rfl
  | @blank c f hc _ ih =>
    rw [← ih]
    exact readHeader_congr (skipBlanks_append (g := [c]) (by simpa [Blank] using hc))
  | @comment u f hu _ ih =>
    have hskip : skipBlanks ('c' :: u ++ '\n' :: f ++ s) = 'c' :: (u ++ '\n' :: (f ++ s)) := by
      rw [List.append_assoc]
      exact skipBlanks_cons (by decide)
    rw [readHeader_comment hskip, skipLine_append hu, ih]

/-- Statements one after another are read in their order. -/
theorem BodyText.readStatements (h : BodyText sts u) (hsts : ∀ st ∈ sts, st.Writable)
    (done : Array Statement) : readStatements done u = (done ++ sts.toArray, .ok ()) := by
  induction h generalizing done with
  | @nil f hf =>
    rw [← List.append_nil f, hf.readStatements_append, readStatements_of_blank rfl]
    simp
  | @cons st sts f t u hf hst _ ih =>
    obtain ⟨v, g, rfl, hg, htakes⟩ := hst.exists_takes (hsts st (by simp))
    rw [hf.readStatements_append, List.append_assoc, readStatements_append htakes hg.apart,
      readStatements_congr (skipBlanks_append hg.blank),
      ih (fun st hst => hsts st (by simp [hst]))]
    simp

theorem Rendering.exists_body (h : Rendering vars count sts s) (hvars : vars < UInt64.size)
    (hcount : count < UInt64.size) :
    ∃ g u, Gap g ∧ BodyText sts u ∧ readHeader s = .ok (vars, count, g ++ u) := by
  cases h with
  | @mk f w g t g' t' g'' u hf hw hg htv hg' htc hg'' hbody =>
    refine ⟨g'', u, hg'', hbody, ?_⟩
    rw [hf.readHeader_append]
    have hskip : skipBlanks (w ++ (g ++ (t ++ (g' ++ (t' ++ (g'' ++ u)))))) =
        w ++ (g ++ (t ++ (g' ++ (t' ++ (g'' ++ u))))) := by
      cases hw <;> exact skipBlanks_cons (by decide)
    have hvarsText : readNumber (g ++ (t ++ (g' ++ (t' ++ (g'' ++ u))))) =
        .ok (vars, g' ++ (t' ++ (g'' ++ u))) := by
      rw [← List.append_assoc]
      exact htv.readNumber_append hg.blank hvars hg'.apart
    refine readHeader_word hw hskip (fun _ hplus => ?_) hvarsText ?_
    · obtain ⟨c, g, rfl⟩ := List.exists_cons_of_ne_nil hg.ne_nil
      obtain rfl := Option.some.inj hplus
      exact absurd (hg.blank '+' (by simp)) (by decide)
    · rw [← List.append_assoc]
      exact htc.readNumber_append hg'.blank hcount hg''.apart

/-- A text that renders statements is read as these statements. -/
theorem Rendering.read (h : Rendering vars count sts s) (hvars : vars < UInt64.size)
    (hcount : count < UInt64.size) (hsts : ∀ st ∈ sts, st.Writable) :
    read false s = ⟨sts, .ok ()⟩ := by
  obtain ⟨g, u, hg, hbody, hheader⟩ := h.exists_body hvars hcount
  have hread : CnfPlus.readStatements #[] (g ++ u) = (sts.toArray, .ok ()) := by
    rw [readStatements_congr (skipBlanks_append hg.blank), hbody.readStatements hsts]
    simp
  simp [CnfPlus.read, hheader, hread]

/-! ## Texts that break off -/

/-- What was read of a text before an error, or before the comparison with the header, is what a
prefix of the text contains. -/
theorem exists_prefix_of_read {strict : Bool} (h : readHeader s = .ok (vars, count, r)) :
    ∃ p, p <+: s ∧ read false p = ⟨(read strict s).statements, .ok ()⟩ := by
  obtain ⟨u, rfl, hr, htakes⟩ := takes_of_readHeader h
  obtain ⟨p, hp, hread⟩ : ∃ p, p <+: r ∧
      readStatements #[] p = ((readStatements #[] r).1, .ok ()) := exists_prefix_of_readStatements
  refine ⟨u ++ p, (List.prefix_append_right_inj u).2 hp, ?_⟩
  have hstatements : (CnfPlus.read strict (u ++ r)).statements =
      (readStatements #[] r).1.toList := by
    unfold CnfPlus.read
    simp only [h]
    split <;> rfl
  rw [hstatements]
  simp [CnfPlus.read, htakes p (hr.of_prefix hp), hread]

/-- The text of an error about the form of a text starts with the mark of the reader. -/
theorem message_of_ne_notText {e : ReadError} (h : e ≠ .notText) :
    ∃ why, e.message = "PARSE ERROR! " ++ why := by
  have happ : ∀ {a b : String} (c : String), a = "PARSE ERROR! " ++ b →
      a ++ c = "PARSE ERROR! " ++ (b ++ c) := fun c h => by rw [h, String.append_assoc]
  cases e with
  | notText => exact absurd rfl h
  | wordExpected w =>
    have hmark : "PARSE ERROR! failed to consume; expected '" =
        "PARSE ERROR! " ++ "failed to consume; expected '" := by decide
    exact ⟨_, happ "'" (happ w hmark)⟩
  | numberExpected => exact ⟨"int expected", by decide⟩
  | numberTooBig => exact ⟨"int out of range", by decide⟩
  | literalTooBig n =>
    have hmark : "PARSE ERROR! literal " = "PARSE ERROR! " ++ "literal " := by decide
    exact ⟨_, happ " out of range" (happ (toString n) hmark)⟩
  | constraintCount d n =>
    have hmark : "PARSE ERROR! DIMACS header mismatch: " =
        "PARSE ERROR! " ++ "DIMACS header mismatch: " := by decide
    exact ⟨_, happ " found" (happ (toString n) (happ " clauses declared, "
      (happ (toString d) hmark)))⟩
  | variableCount d n =>
    have hmark : "PARSE ERROR! DIMACS header mismatch: " =
        "PARSE ERROR! " ++ "DIMACS header mismatch: " := by decide
    exact ⟨_, happ " discovered" (happ (toString n) (happ " vars declared, "
      (happ (toString d) hmark)))⟩

theorem ne_notText_of_readDigits {e : ReadError} (h : readDigits s = .error e) : e ≠ .notText := by
  unfold readDigits at h
  simp only at h
  split at h
  next => exact Except.error.inj h ▸ by simp
  next => split at h <;> first | contradiction | exact Except.error.inj h ▸ by simp

theorem ne_notText_of_readNumber {e : ReadError} (h : readNumber s = .error e) : e ≠ .notText := by
  unfold readNumber at h
  split at h <;> exact ne_notText_of_readDigits h

theorem ne_notText_of_expectChars {w : String} {cs : List Char} {e : ReadError}
    (h : expectChars w cs s = .error e) : e ≠ .notText := by
  induction cs generalizing s with
  | nil => contradiction
  | cons c cs ih =>
    cases s with
    | nil => exact Except.error.inj h ▸ by simp
    | cons d s =>
      unfold expectChars at h
      split at h
      next => exact ih h
      next => exact Except.error.inj h ▸ by simp

theorem ne_notText_of_bound {e : ReadError} {w : String} {f : Nat → Statement} (h : (do
      let r ← expect w s
      let (k, r) ← readNumber r
      return (f k, r) : Except ReadError (Statement × List Char)) = .error e) : e ≠ .notText := by
  simp only [bind, Except.bind] at h
  split at h
  next hw => exact ne_notText_of_expectChars (Except.error.inj h ▸ hw)
  next =>
    split at h
    next hk => exact ne_notText_of_readNumber (Except.error.inj h ▸ hk)
    next => contradiction

theorem ne_notText_of_readStatement {e : ReadError} (h : readStatement ids s = .error e) :
    e ≠ .notText := by
  fun_induction readStatement ids s with
  | case1 => exact ne_notText_of_bound h
  | case2 => exact ne_notText_of_bound h
  | case3 ids s _ _ e' hread =>
    obtain rfl := Except.error.inj h
    simp only [readId, bind, Except.bind] at hread
    split at hread
    next hd => exact ne_notText_of_readDigits (Except.error.inj hread ▸ hd)
    next =>
      split at hread
      next => contradiction
      next => exact Except.error.inj hread ▸ by simp
  | case4 => contradiction
  | case5 _ _ _ _ _ _ _ _ _ ih => exact ih h

theorem ne_notText_of_readStatements {done : Array Statement} {e : ReadError}
    (h : (readStatements done s).2 = .error e) : e ≠ .notText := by
  fun_induction readStatements done s with
  | case1 => contradiction
  | case2 done s r _ _ ih => exact ih h
  | case3 done s _ _ e' hst => exact ne_notText_of_readStatement (Except.error.inj h ▸ hst)
  | case4 done s st r _ _ _ _ ih => exact ih h

theorem ne_notText_of_readHeader {e : ReadError} (h : readHeader s = .error e) : e ≠ .notText := by
  fun_induction readHeader s with
  | case1 s q _ _ ih => exact ih h
  | case2 s _ =>
    simp only [bind, Except.bind] at h
    split at h
    next hw => exact ne_notText_of_expectChars (Except.error.inj h ▸ hw)
    next =>
      split at h
      next hk => exact ne_notText_of_readNumber (Except.error.inj h ▸ hk)
      next =>
        split at h
        next hk => exact ne_notText_of_readNumber (Except.error.inj h ▸ hk)
        next => contradiction

theorem ne_notText_of_checkHeader {e : ReadError} (h : checkHeader vars count sts = .error e) :
    e ≠ .notText := by
  simp only [checkHeader, bind, Except.bind, throw, throwThe, MonadExceptOf.throw] at h
  split at h
  next => exact Except.error.inj h ▸ by simp
  next =>
    dsimp only [pure, Except.pure] at h
    split at h
    next => exact Except.error.inj h ▸ by simp
    next => contradiction

/-- The reading of a text ends well or with an error about the form of the text. -/
theorem ne_notText_of_read {strict : Bool} {e : ReadError} (h : (read strict s).outcome = .error e) :
    e ≠ .notText := by
  unfold CnfPlus.read at h
  split at h
  next hheader => exact ne_notText_of_readHeader (Except.error.inj h ▸ hheader)
  next vars count r _ =>
    simp only at h
    split at h
    next hread => exact ne_notText_of_readStatements (Except.error.inj h ▸ hread)
    next =>
      cases strict with
      | false => contradiction
      | true => exact ne_notText_of_checkHeader h

/-! ## What was read can be written -/

theorem bound_lt_size {w : String} {f : Nat → Statement} (hf : ∀ k, (f k).bound = k) (h : (do
      let r ← expect w s
      let (k, r) ← readNumber r
      return (f k, r) : Except ReadError (Statement × List Char)) = .ok (st, r)) :
    st.bound < UInt64.size := by
  obtain ⟨k, u, -, rfl, -, htakes⟩ := takes_of_bound h
  obtain ⟨-, -, -, -, -, hk, -⟩ := readNumber_eq_ok_iff.1 (htakes [] apart_nil)
  exact (hf k).symm ▸ hk

theorem writable_of_readStatement (h : readStatement ids s = .ok (st, r))
    (hids : ∀ id ∈ ids, IsId id) : st.Writable := by
  refine ⟨(fits_of_readStatement h hids).isId, ?_⟩
  clear hids
  fun_induction readStatement ids s with
  | case1 => exact bound_lt_size (fun _ => rfl) h
  | case2 => exact bound_lt_size (fun _ => rfl) h
  | case3 => contradiction
  | case4 ids s q _ _ _ =>
    obtain ⟨rfl, -⟩ := Prod.mk.inj (Except.ok.inj h)
    exact Nat.zero_lt_succ _
  | case5 _ _ _ _ _ _ _ _ _ ih => exact ih h

/-- The numbers that are read fit the words of the machine. -/
theorem writable_of_readStatements {done : Array Statement}
    (hdone : ∀ st ∈ done.toList, st.Writable) :
    ∀ st ∈ (readStatements done s).1.toList, st.Writable := by
  fun_induction readStatements done s with
  | case1 => exact hdone
  | case2 done s r _ _ ih => exact ih hdone
  | case3 => exact hdone
  | case4 done s st r _ _ hread _ ih =>
    refine ih fun x hx => ?_
    rw [Array.toList_push, List.mem_append, List.mem_singleton] at hx
    rcases hx with hx | rfl
    · exact hdone x hx
    · exact writable_of_readStatement hread (by simp)

theorem writable_of_read {strict : Bool} : ∀ st ∈ (read strict s).statements, st.Writable := by
  unfold CnfPlus.read
  split
  next => exact fun st hst => absurd hst List.not_mem_nil
  next vars count r _ =>
    have hread : ∀ st ∈ (readStatements #[] r).1.toList, st.Writable :=
      writable_of_readStatements (by simp)
    simp only
    split <;> exact hread

/-! ## The reader -/

/-- Reading gives back the statements that a text renders. Any text is read to its end or refused
with an error about its form, and the statements of a text that is refused behind its header are
those that a prefix of it renders without an error. -/
theorem readBytes_spec :
    (∀ (vars count : Nat) (sts : List Statement) (text : String), vars < UInt64.size →
      count < UInt64.size → (∀ st ∈ sts, st.Writable) → Rendering vars count sts text.toList →
      readBytes false text.toByteArray = ⟨sts, .ok ()⟩) ∧
    ∀ (strict : Bool) (text : String),
      (∀ st ∈ (readBytes strict text.toByteArray).statements, st.Writable) ∧
      ((readBytes strict text.toByteArray).outcome = .ok () ∨
        ∃ e why, (readBytes strict text.toByteArray).outcome = .error e ∧
          e.message = "PARSE ERROR! " ++ why) ∧
      ∀ e x, (readBytes strict text.toByteArray).outcome = .error e →
        readHeader text.toList = .ok x →
        ∃ p : String, p.toList <+: text.toList ∧ readBytes false p.toByteArray =
          ⟨(readBytes strict text.toByteArray).statements, .ok ()⟩ := by
  refine ⟨fun vars count sts text hvars hcount hsts h => ?_, fun strict text => ?_⟩
  · rw [readBytes_toByteArray]
    exact h.read hvars hcount hsts
  · simp only [readBytes_toByteArray]
    refine ⟨writable_of_read, ?_, fun e ⟨vars, count, r⟩ _ hheader => ?_⟩
    · cases ho : (CnfPlus.read strict text.toList).outcome with
      | ok u => exact .inl rfl
      | error e =>
        obtain ⟨why, hwhy⟩ := message_of_ne_notText (ne_notText_of_read ho)
        exact .inr ⟨e, why, rfl, hwhy⟩
    · obtain ⟨p, hp, hread⟩ := exists_prefix_of_read hheader
      exact ⟨.ofList p, by rwa [String.toList_ofList], by rwa [String.toList_ofList]⟩

/-! ## Two texts -/

theorem gap_singleton {c : Char} (h : isBlank c = true) : Gap [c] :=
  ⟨by simp, by simpa [Blank] using h⟩

theorem numeral_of_all {n : Nat} {ds : List Char} (hne : ds ≠ [])
    (hdigits : ds.all Char.isDigit = true) (hvalue : digitsValue ds = n) : Numeral n ds :=
  ⟨hne, List.all_eq_true.1 hdigits, hvalue⟩

/-- A text of a clause and a bound with comments. -/
def commentedText : String := "c two constraints\np cnf+ 2 2\n1 -2 0\nc a bound\n1 2 <= 1\n"

theorem rendering_commentedText :
    Rendering 2 2 [.clause [1, -2], .atMost [1, 2] 1] commentedText.toList := by
  have htext : commentedText.toList = ('c' :: " two constraints".toList ++ '\n' :: []) ++
      ("p cnf+".toList ++ ([' '] ++ (['2'] ++ ([' '] ++ (['2'] ++ (['\n'] ++
        ([] ++ ((['1'] ++ ([' '] ++ ('-' :: ['2'] ++ ([' '] ++ [])))) ++ (['0'] ++ ['\n']) ++
          (('c' :: " a bound".toList ++ '\n' :: []) ++
            ((['1'] ++ ([' '] ++ (['2'] ++ ([' '] ++ [])))) ++
              ("<=".toList ++ ([' '] ++ (['1'] ++ ['\n']))) ++ [])))))))))) := by
    decide
  have hspace : Gap [' '] := gap_singleton (by decide)
  have hline : Gap ['\n'] := gap_singleton (by decide)
  have hzero : Numeral 0 ['0'] := numeral_of_all (by decide) (by decide) (by decide)
  have hone : Numeral 1 ['1'] := numeral_of_all (by decide) (by decide) (by decide)
  have htwo : Numeral 2 ['2'] := numeral_of_all (by decide) (by decide) (by decide)
  rw [htext]
  refine .mk (.comment (by decide) .nil) .cnfPlus hspace (.plain htwo) hspace (.plain htwo) hline
    (.cons .nil (.clause (.cons (.number (.plain hone)) hspace
      (.cons (.minus htwo) hspace .nil)) (.number (.plain hzero)) hline)
    (.cons (.comment (by decide) .nil) (.atMost (.cons (.number (.plain hone)) hspace
      (.cons (.number (.plain htwo)) hspace .nil)) hspace (.plain hone) hline) (.nil .nil)))

/-- A comment, a clause and a bound are read back. -/
theorem readBytes_commentedText : Rendering 2 2 [.clause [1, -2], .atMost [1, 2] 1]
      commentedText.toList ∧
    readBytes false commentedText.toByteArray =
      ⟨[.clause [1, -2], .atMost [1, 2] 1], .ok ()⟩ := by
  have hids : ∀ id ∈ ([1, -2, 2] : List Int), IsId id := fun id hid => by
    constructor <;> revert id <;> decide
  refine ⟨rendering_commentedText, readBytes_spec.1 2 2 _ _ (by decide) (by decide) ?_
    rendering_commentedText⟩
  simp only [List.forall_mem_cons]
  refine ⟨⟨fun id hid => hids id ?_, by decide⟩, ⟨fun id hid => hids id ?_, by decide⟩, by simp⟩
  · revert id; decide
  · revert id; decide

/-- A text whose header holds a number beyond the words of the machine. -/
def longHeaderText : String := "p cnf 99999999999999999999999999 1\n1 0\n"

/-- Where a number of the header is beyond the words of the machine, the text is refused. -/
theorem refused_of_longHeader : ¬ ∀ (vars count : Nat) (sts : List Statement) (text : String),
    (∀ st ∈ sts, st.Writable) → Rendering vars count sts text.toList →
    readBytes false text.toByteArray = ⟨sts, .ok ()⟩ := by
  intro h
  have htext : longHeaderText.toList = [] ++ ("p cnf".toList ++ ([' '] ++
      ("99999999999999999999999999".toList ++ ([' '] ++ (['1'] ++ (['\n'] ++
        ([] ++ ((['1'] ++ ([' '] ++ [])) ++ (['0'] ++ ['\n']) ++ [])))))))) := by decide
  have hspace : Gap [' '] := gap_singleton (by decide)
  have hline : Gap ['\n'] := gap_singleton (by decide)
  have hone : Numeral 1 ['1'] := numeral_of_all (by decide) (by decide) (by decide)
  have hvars : Numeral 99999999999999999999999999 "99999999999999999999999999".toList :=
    numeral_of_all (by decide) (by decide) (by decide)
  -- the text is one of the renderings
  have hrendering : Rendering 99999999999999999999999999 1 [.clause [1]]
      longHeaderText.toList := by
    rw [htext]
    exact .mk .nil .cnf hspace (.plain hvars) hspace (.plain hone) hline
      (.cons .nil (.clause (.cons (.number (.plain hone)) hspace .nil)
        (.number (.plain (numeral_of_all (by decide) (by decide) (by decide)))) hline) (.nil .nil))
  have hread := h _ _ _ _ (by
    simp only [List.forall_mem_cons]
    exact ⟨⟨by intro id hid; constructor <;> revert id <;> decide, by decide⟩, by simp⟩) hrendering
  have hrefused : (CnfPlus.read false longHeaderText.toList).statements = [] := by
    have hheader : readHeader longHeaderText.toList = .error .numberTooBig := by cbv
    rw [CnfPlus.read, hheader]
  rw [readBytes_toByteArray] at hread
  rw [hread] at hrefused
  contradiction

end CnfPlus

end CardSat
