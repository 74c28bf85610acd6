import CardSat.Proofs.Analysis.Returning

set_option autoImplicit false

/-! # What minimisation leaves out

A literal of a derived clause is `Dispensable` when it has a reason all of whose antecedents hold at
the ground level, belong to the clause, or are dispensable in turn. The deep search for redundant
literals decides this relation: it never runs out of depth, and its answer does not depend on the
marks that earlier searches have left. For this the marks have to say the truth in both directions
(`Probe.Faithful`): what is marked as failed is not redundant.

So the deep mode leaves out the explained literals and no others (`kept_of_deep`).

There are two descriptions of the same thing. `Redundant` and `Explained` speak of variables and of
the set of variables that are marked as part of the clause, which is what the search sees.
`Dispensable` speaks of the clause itself, its first literal included, which is what a reader of the
clause sees. Below the current level they agree (`Network.dispensable_iff_explained`), because an
antecedent is false as the literals of the clause are, so that a variable of the clause comes with
the same literal, and because no antecedent reaches the level of the first literal.
-/

namespace CardSat

/-- A literal follows from the other literals of a clause: it has a reason, and every antecedent of
it holds at the ground level, belongs to the clause, or follows as well. -/
inductive Dispensable (store : Store) (t : Trail) (clause : List Lit) : Lit → Prop
  | intro {l : Lit} {h : Handle} {c : Constraint} {as : List Lit} (hreason : t.reasonOf l.var = some h)
      (hc : store.get? h = some c) (has : c.antecedents t true = .ok as)
      (hall : ∀ a ∈ as, t.levelOf a.var ≠ 0 → a ∉ clause → Dispensable store t clause a) :
      Dispensable store t clause l

variable {store : Store} {t : Trail} {S : Var → Prop} {p p' : Probe} {l : Lit} {v : Var} {b : Bool}
  {clause : List Lit}

/-- One step of the recursion: what is dispensable is so because of its reason. -/
theorem dispensable_iff : Dispensable store t clause l ↔ ∃ h c as, t.reasonOf l.var = some h ∧
    store.get? h = some c ∧ c.antecedents t true = .ok as ∧
    ∀ a ∈ as, t.levelOf a.var = 0 ∨ a ∈ clause ∨ Dispensable store t clause a := by
  constructor
  · rintro ⟨hreason, hc, has, hall⟩
    refine ⟨_, _, _, hreason, hc, has, fun a ha => ?_⟩
    by_cases hzero : t.levelOf a.var = 0
    · exact .inl hzero
    · by_cases hmem : a ∈ clause
      · exact .inr (.inl hmem)
      · exact .inr (.inr (hall a ha hzero hmem))
  · rintro ⟨h, c, as, hreason, hc, has, hall⟩
    refine .intro hreason hc has fun a ha hzero hmem => ?_
    exact ((hall a ha).resolve_left hzero).resolve_left hmem

/-- One step of the recursion for `Redundant`, which counts the ground level and the members of the
clause in. -/
theorem redundant_iff :
    Redundant store t S v ↔ t.levelOf v = 0 ∨ S v ∨ Explained store t S v := by
  constructor
  · intro h
    cases h with
    | ground hzero => exact .inl hzero
    | member hmem => exact .inr (.inl hmem)
    | step hreason hc has hall => exact .inr (.inr ⟨_, _, _, hreason, hc, has, hall⟩)
  · rintro (hzero | hmem | hex)
    · exact .ground hzero
    · exact .member hmem
    · exact hex.redundant

/-! ## The search decides what is redundant

Soundness of the marks is `Probe.Sensible`. For the converse a mark `failed` must not be wrong
either. It never is, since the recursion is on the trail: antecedents come earlier, so a search that
fails has not met the literal it began with, and what it notes depends on nothing that is still
open. -/

/-- The marks of a search say the truth in both directions. -/
structure Probe.Faithful (store : Store) (t : Trail) (S : Var → Prop) (p : Probe) : Prop
    extends p.Sensible store t S where
  member : ∀ v, S v → p.marks.markOf v = .inClause
  failed : ∀ v, p.marks.markOf v = .failed → ¬ Redundant store t S v

/-- Noting the answer for a literal keeps the marks truthful. A variable of the clause has its mark
already and keeps it. -/
theorem Probe.faithful_note {mark : Mark} (hp : p.Faithful store t S)
    (hm : mark = .failed ∧ (S l.var ∨ ¬ Redundant store t S l.var) ∨
      mark = .removable ∧ Redundant store t S l.var)
    (h : p.note l mark = .ok p') : p'.Faithful store t S := by
  have hsensible := sensible_note hp.toSensible (hm.imp And.left id) h
  simp only [note, bind_eq_ok] at h
  obtain ⟨x, hx, h⟩ := h
  split at h
  next hclear =>
      simp only [bind_eq_ok, pure_eq_ok] at h
      obtain ⟨marks, hset, rfl⟩ := h
      have hmarks := Marks.set_eq_ok hset
      -- a variable of the clause is marked already
      have hother : ¬ S l.var := fun hS => by
        have hin := hp.member _ hS
        rw [Marks.of_eq_ok hx, hclear] at hin
        cases hin
      refine ⟨hsensible, fun v hv => ?_, fun v hv => ?_⟩
      · have hne : v ≠ l.var := fun he => hother (he ▸ hv)
        rw [hmarks, if_neg hne]
        exact hp.member v hv
      · rw [hmarks] at hv
        split at hv
        next he =>
            obtain ⟨-, hS | hno⟩ | ⟨hremovable, -⟩ := hm
            · exact absurd hS hother
            · exact he ▸ hno
            · exact absurd (hremovable.symm.trans hv) (by decide)
        next => exact hp.failed v hv
  next =>
      obtain rfl := pure_eq_ok.1 h
      exact hp

/-- Going through a list of antecedents answers yes exactly if all of them are redundant. -/
theorem faithful_of_allExplained {descend : Lit → Probe → Checked (Bool × Probe)}
    (hdescend : ∀ l p b p', p.Faithful store t S → t.levelOf l.var ≠ 0 →
      descend l p = .ok (b, p') →
      p'.Faithful store t S ∧ (b = true ↔ Explained store t S l.var)) :
    ∀ {lits : List Lit} {p : Probe}, p.Faithful store t S →
      allExplained t descend lits p = .ok (b, p') →
      p'.Faithful store t S ∧ (b = true ↔ ∀ a ∈ lits, Redundant store t S a.var) := by
  intro lits
  induction lits with
  | nil =>
      intro p hp h
      simp only [allExplained, pure_eq_ok, Prod.mk.injEq] at h
      obtain ⟨rfl, rfl⟩ := h
      exact ⟨hp, by simp⟩
  | cons l lits ih =>
      intro p hp h
      simp only [allExplained, bind_eq_ok, Trail.cell_eq_ok] at h
      obtain ⟨cell, ⟨-, rfl⟩, mark, hmark, h⟩ := h
      have hmark := Marks.of_eq_ok hmark
      -- if the first literal is redundant, the others decide
      have hrest : ∀ q, q.Faithful store t S → Redundant store t S l.var →
          allExplained t descend lits q = .ok (b, p') →
          p'.Faithful store t S ∧ (b = true ↔ ∀ a ∈ l :: lits, Redundant store t S a.var) := by
        intro q hq hred h
        obtain ⟨hp', hall⟩ := ih hq h
        rw [List.forall_mem_cons]
        exact ⟨hp', hall.trans (and_iff_right hred).symm⟩
      -- if it is not, the answer is no and the others are not looked at
      have hstop : ∀ q : Probe, q.Faithful store t S → ¬ Redundant store t S l.var →
          q.Faithful store t S ∧ (false = true ↔ ∀ a ∈ l :: lits, Redundant store t S a.var) :=
        fun q hq hno => ⟨hq, iff_of_false Bool.false_ne_true fun hall => hno (hall l (by simp))⟩
      split at h
      next hknown =>
          refine hrest p hp ?_ h
          rcases hknown with hzero | hin | hrem
          · exact .ground hzero
          · exact .member (hp.inClause _ (hmark.trans hin))
          · exact hp.removable _ (hmark.trans hrem)
      next hunknown =>
          push Not at hunknown
          obtain ⟨hzero, hin, -⟩ := hunknown
          have hother : ¬ S l.var := fun hS => hin (hmark.symm.trans (hp.member _ hS))
          split at h
          next hblocked =>
              simp only [pure_eq_ok, Prod.mk.injEq] at h
              obtain ⟨rfl, rfl⟩ := h
              refine hstop p hp fun hred => ?_
              rcases hblocked with hfailed | hnone
              · exact hp.failed _ (hmark.trans hfailed) hred
              · obtain ⟨h, -, -, hreason, -⟩ :=
                  ((redundant_iff.1 hred).resolve_left hzero).resolve_left hother
                rw [Option.isNone_iff_eq_none] at hnone
                exact absurd (hreason.symm.trans hnone) (Option.some_ne_none h)
          next =>
              simp only [bind_eq_ok] at h
              obtain ⟨⟨b₁, p₁⟩, hd, h⟩ := h
              obtain ⟨hp₁, hex⟩ := hdescend l p b₁ p₁ hp hzero hd
              cases b₁ with
              | true => exact hrest p₁ hp₁ (hex.1 rfl).redundant h
              | false =>
                  simp only [pure_eq_ok, Prod.mk.injEq] at h
                  obtain ⟨rfl, rfl⟩ := h
                  refine hstop p₁ hp₁ fun hred => ?_
                  exact absurd (hex.2 (((redundant_iff.1 hred).resolve_left hzero).resolve_left
                    hother)) Bool.false_ne_true

/-- The search for one literal answers yes exactly if its antecedents are redundant. -/
theorem faithful_of_redundantWithin : ∀ (depth : Nat) (l : Lit) (p : Probe) (b : Bool)
    (p' : Probe), p.Faithful store t S → t.levelOf l.var ≠ 0 →
      redundantWithin store t depth l p = .ok (b, p') →
      p'.Faithful store t S ∧ (b = true ↔ Explained store t S l.var) := by
  intro depth
  induction depth with
  | zero =>
      intro l p b p' _ _ h
      simp [redundantWithin, throw_ne_ok] at h
  | succ depth ih =>
      intro l p b p' hp hzero h
      simp only [redundantWithin, bind_eq_ok, Trail.cell_eq_ok] at h
      obtain ⟨cell, ⟨-, rfl⟩, h⟩ := h
      split at h
      -- a decision has no antecedents, so it is not explained
      next hnone =>
          simp only [pure_eq_ok, Prod.mk.injEq] at h
          obtain ⟨rfl, rfl⟩ := h
          refine ⟨hp, iff_of_false Bool.false_ne_true ?_⟩
          rintro ⟨h, -, -, hreason, -⟩
          exact absurd (hreason.symm.trans hnone) (Option.some_ne_none h)
      next a hreason =>
          simp only [bind_eq_ok, pure_eq_ok, Store.fetch_eq_ok] at h
          obtain ⟨c, hc, as, has, ⟨explained, p₁⟩, hall, p₂, hnote, heq⟩ := h
          obtain ⟨rfl, rfl⟩ := Prod.mk.inj heq
          obtain ⟨hp₁, hred⟩ := faithful_of_allExplained ih hp hall
          -- there is only one reason, so the antecedents looked at are those of any explanation
          have hex : explained = true ↔ Explained store t S l.var := by
            refine hred.trans ⟨fun hall => ⟨a, c, as, hreason, hc, has, hall⟩, ?_⟩
            rintro ⟨a', c', as', hreason', hc', has', hall'⟩
            obtain rfl := Option.some.inj (hreason.symm.trans hreason')
            obtain rfl := Option.some.inj (hc.symm.trans hc')
            obtain rfl := Except.ok.inj (has.symm.trans has')
            exact hall'
          refine ⟨Probe.faithful_note hp₁ ?_ hnote, hex⟩
          cases explained with
          | true => exact .inr ⟨rfl, (hex.1 rfl).redundant⟩
          | false =>
              refine .inl ⟨rfl, or_iff_not_imp_left.2 fun hother hred => ?_⟩
              exact absurd (hex.2 (((redundant_iff.1 hred).resolve_left hzero).resolve_left hother))
                Bool.false_ne_true

/-- The marks that any number of searches for literals of levels between the ground level and the
current one have left. -/
inductive Probe.Left (store : Store) (t : Trail) (p : Probe) : Probe → Prop
  | start : Left store t p p
  | search {p₁ p₂ : Probe} {l : Lit} {b : Bool} (hp : Left store t p p₁) (hl : l.neg ∈ t)
      (hpos : 0 < t.levelOf l.var) (hlt : t.levelOf l.var < t.level)
      (h : redundant store t l p₁ = .ok (b, p₂)) : Left store t p p₂

/-- Any number of searches leave truthful marks. -/
theorem Probe.Left.faithful (hl : p.Left store t p') (hp : p.Faithful store t S) :
    p'.Faithful store t S := by
  induction hl with
  | start => exact hp
  | search _ _ hpos _ h ih =>
      exact (faithful_of_redundantWithin _ _ _ _ _ ih (Nat.pos_iff_ne_zero.1 hpos) h).1

/-- Any number of searches leave complete marks, and touch known variables only. -/
theorem Probe.Left.known {n : Network} (hs : n.Justified) (hl : p.Left n.store n.trail p')
    (hp : p.Known n.trail.varCount) : p'.Known n.trail.varCount := by
  induction hl with
  | start => exact hp
  | search _ hneg _ _ h ih =>
      obtain ⟨_, _, h', hp'⟩ := returns_of_redundant hs hneg ih
      obtain ⟨rfl, rfl⟩ := Prod.mk.inj (Except.ok.inj (h'.symm.trans h))
      exact hp'

/-! ## Clauses below the current level -/

namespace Network

variable {n : Network}

/-- An antecedent is false, and not of a higher level than the literal that it explains. -/
theorem Justified.antecedent (hs : n.Justified) {a : Lit} {h : Handle} {c : Constraint}
    {as : List Lit} (hl : l.neg ∈ n.trail) (hreason : n.trail.reasonOf l.var = some h)
    (hc : n.store.get? h = some c) (has : c.antecedents n.trail true = .ok as) (ha : a ∈ as) :
    a.neg ∈ n.trail ∧ n.trail.levelOf a.var ≤ n.trail.levelOf l.var := by
  obtain ⟨i, hi⟩ := List.mem_iff_getElem?.1 hl
  obtain ⟨c', as', hc', has', hneg⟩ := exists_antecedents hs hi hreason
  obtain rfl := Option.some.inj (hc.symm.trans hc')
  obtain rfl := Except.ok.inj (has.symm.trans has')
  exact ⟨List.mem_of_mem_take (hneg a ha),
    hs.trail.levelOf_le_of_mem_take (l := a.neg) (m := l.neg) (hneg a ha) hi⟩

/-- Below the current level it does not matter whether the first literal of a derived clause, which
is of the current level, counts as one of its literals. -/
theorem dispensable_iff_explained (hs : n.Justified) {first : Lit} {rest : List Lit}
    (hfirst : n.trail.levelOf first.var = n.trail.level) (hrest : ∀ a ∈ rest, a.neg ∈ n.trail)
    (hl : l.neg ∈ n.trail) (hlt : n.trail.levelOf l.var < n.trail.level) :
    Dispensable n.store n.trail (first :: rest) l ↔
      Explained n.store n.trail (fun v => v ∈ rest.map Lit.var) l.var := by
  constructor
  · intro hd
    induction hd with
    | @intro l h c as hreason hc has _ ih =>
        refine ⟨h, c, as, hreason, hc, has, fun a ha => ?_⟩
        obtain ⟨hneg, hle⟩ := hs.antecedent hl hreason hc has ha
        by_cases hzero : n.trail.levelOf a.var = 0
        · exact .ground hzero
        · by_cases hmem : a ∈ first :: rest
          · rcases List.mem_cons.1 hmem with rfl | hmem
            · omega
            · exact .member (List.mem_map_of_mem hmem)
          · exact (ih a ha hzero hmem hneg (by omega)).redundant
  · rintro ⟨h, c, as, hreason, hc, has, hall⟩
    suffices ∀ v, Redundant n.store n.trail (fun v => v ∈ rest.map Lit.var) v → ∀ a : Lit,
        a.var = v → a.neg ∈ n.trail → n.trail.levelOf a.var ≠ 0 → a ∉ first :: rest →
        Dispensable n.store n.trail (first :: rest) a from
      .intro hreason hc has fun a ha hzero hmem => this a.var (hall a ha) a rfl
        (hs.antecedent hl hreason hc has ha).1 hzero hmem
    intro v hred
    induction hred with
    | ground hzero => exact fun a hav _ hne _ => absurd (hav ▸ hzero) hne
    | member hS =>
        rintro a rfl hneg - hmem
        obtain ⟨m, hm, hmv⟩ := List.mem_map.1 hS
        -- both literals are false, so they are the same
        have heq : m.neg = a.neg := hs.trail.eq_of_var_eq (hrest m hm) hneg hmv
        have : m = a := by rw [← Lit.neg_neg m, heq, Lit.neg_neg]
        exact absurd (List.mem_cons_of_mem first (this ▸ hm)) hmem
    | step hreason hc has _ ih =>
        rintro a rfl hneg - -
        exact .intro hreason hc has fun m hm hzero hmem =>
          ih m hm m rfl (hs.antecedent hneg hreason hc has hm).1 hzero hmem

/-- The worlds in which the stored constraints and the literals of the ground level hold. -/
structure Admits (n : Network) (w : World) : Prop where
  stored : ∀ h c, n.store.get? h = some c → c.holds w = true
  ground : ∀ l ∈ n.trail, n.trail.levelOf l.var = 0 → l.holds w = true

/-- The admitted worlds are those of which the soundness of a network speaks. -/
theorem sound_admits (n : Network) : n.Sound n.Admits := ⟨fun _ hw => hw.stored, fun _ hw => hw.ground⟩

end Network

/-! ## The modes

What each mode keeps of the derived clause, as a filter of its literals. The first literal is the
one of the current level, and no mode looks at it. -/

namespace Analysis

variable {n : Network} {a : Analysis} {failed : Handle} {last : Lit} {d : Derivation}

/-- The clause that is derived from a failed constraint, before its redundant literals are left out:
the complement of the literal given, which is the last one of the current level, and the literals of
the derivation. -/
def derive (a : Analysis) (store : Store) (t : Trail) (failed : Handle) :
    Checked (Lit × Derivation) := do
  let d ← (⟨a.marks, #[], 0, #[], #[]⟩ : Derivation).takeConstraint store t failed false
  d.resolve store t t.size

/-- An analysis above the ground level derives a clause and minimises it. -/
theorem analyze_eq_derive (hlevel : 0 < t.level) : a.analyze store t failed = do
    let (last, d) ← a.derive store t failed
    let rest := d.lits.toList
    let (lits, marks) ← minimise a.minimisation store t d.marks last.neg rest
    return (⟨← lesson t lits, d.vars.toList, d.constraints.toList⟩, { a with
      marks
      derivedLits := a.derivedLits + (rest.length + 1)
      learntLits := a.learntLits + lits.size }) := by
  have hground : t.isGround = false := by
    rw [Trail.isGround, beq_eq_false_iff_ne]
    omega
  rw [analyze, if_neg (by rw [hground]; exact Bool.false_ne_true), derive, bind_assoc]

open Classical in
/-- The deep mode leaves out what is redundant. -/
theorem kept_of_dropRedundant : ∀ {rest : List Lit} {kept ls : Array Lit} {p p' : Probe},
    p.Faithful store t S → (∀ l ∈ rest, t.levelOf l.var ≠ 0) →
    dropRedundant store t rest kept p = .ok (ls, p') →
    ls.toList = kept.toList ++ rest.filter fun l => ¬ Explained store t S l.var := by
  intro rest
  induction rest with
  | nil =>
      intro kept ls p p' _ _ h
      simp only [dropRedundant, pure_eq_ok, Prod.mk.injEq] at h
      simp [h.1]
  | cons l rest ih =>
      intro kept ls p p' hp hrest h
      simp only [dropRedundant, bind_eq_ok] at h
      obtain ⟨⟨b, p₁⟩, hred, h⟩ := h
      obtain ⟨hp₁, hex⟩ := faithful_of_redundantWithin _ _ _ _ _ hp (hrest l (by simp)) hred
      have hrest' := fun m hm => hrest m (List.mem_cons_of_mem l hm)
      -- the answer is exact, so the literal is left out exactly if the lesson explains it
      cases b with
      | true =>
          rw [List.filter_cons_of_neg (by simpa using hex.1 rfl)]
          exact ih hp₁ hrest' h
      | false =>
          rw [List.filter_cons_of_pos (by simpa using fun he => Bool.false_ne_true (hex.2 he))]
          rw [ih hp₁ hrest' h]
          simp

/-- Without minimisation the whole clause is kept. -/
theorem kept_of_never {marks marks' : Marks} {first : Lit} {rest : List Lit} {ls : Array Lit}
    (h : minimise .never store t marks first rest = .ok (ls, marks')) :
    ls.toList = first :: rest := by
  simp only [minimise, bind_eq_ok, pure_eq_ok, Prod.mk.injEq] at h
  obtain ⟨_, -, rfl, -⟩ := h
  simp

/-- The basic mode leaves out literals whose antecedents belong to the clause. -/
theorem kept_of_basic {marks marks' : Marks} {first : Lit} {rest : List Lit} {ls : Array Lit}
    (h : minimise .basic store t marks first rest = .ok (ls, marks')) :
    ls.toList = first :: rest.filter fun l =>
      !decide (directlyRedundant store t marks l = .ok true) := by
  simp only [minimise, bind_eq_ok, pure_eq_ok, Prod.mk.injEq] at h
  obtain ⟨kept, hkept, _, -, rfl, rfl⟩ := h
  have hfilter : kept = rest.filter fun l =>
      !decide (directlyRedundant store t marks l = .ok true) := by
    refine filterM_ok (fun l _ r hr => ?_) hkept
    simp only [bind_eq_ok, pure_eq_ok] at hr
    obtain ⟨b, hb, rfl⟩ := hr
    cases b <;> simp [hb]
  simp [hfilter]

open Classical in
/-- The deep mode leaves out the literals that are explained. -/
theorem kept_of_deep {marks marks' : Marks} {first : Lit} {rest : List Lit} {ls : Array Lit}
    (hp : Probe.Faithful store t S ⟨marks, []⟩) (hrest : ∀ l ∈ rest, t.levelOf l.var ≠ 0)
    (h : minimise .deep store t marks first rest = .ok (ls, marks')) :
    ls.toList = first :: rest.filter fun l => ¬ Explained store t S l.var := by
  simp only [minimise, bind_eq_ok, pure_eq_ok, Prod.mk.injEq] at h
  obtain ⟨⟨ls₁, p⟩, hdrop, _, -, rfl, -⟩ := h
  rw [kept_of_dropRedundant hp hrest hdrop]
  simp

/-- What a complete derivation has marked is its clause, which is a truthful start for the search
for redundant literals. -/
theorem faithful_of_deriving {R : World → Prop} {rest : List Lit}
    (hd : Derivation.Deriving t R 0 rest d) :
    Probe.Faithful store t (fun v => v ∈ d.lits.toList.map Lit.var) ⟨d.marks, []⟩ := by
  have hmark : ∀ {v : Var} {x : Mark}, d.marks.markOf v = x → x ≠ .clear →
      x = .inClause ∧ v ∈ d.lits.toList.map Lit.var := by
    rintro v x rfl hne
    exact (hd.marks_lits v).resolve_left hne
  refine ⟨⟨fun v hv => (hmark hv (by decide)).2, fun v hv => ?_, fun v hv => .inl (hmark rfl hv).2⟩,
    fun v hv => ?_, fun v hv => ?_⟩
  · exact absurd (hmark hv (by decide)).1 (by decide)
  · obtain ⟨m, hm, rfl⟩ := List.mem_map.1 hv
    exact ((hd.marks_lits m.var).resolve_left (hd.lits_marked m hm)).1
  · exact absurd (hmark hv (by decide)).1 (by decide)

end Analysis

end CardSat
