import CardSat.Proofs.Analysis.Derivation

set_option autoImplicit false

/-! # Leaving out redundant literals is sound

`Redundant` says what the search for redundant literals establishes: a variable holds at the ground
level, belongs to the clause, or all antecedents of its value are redundant. The marks the search
leaves behind are right (`Probe.Sensible`), so what it finds is redundant (`sensible_of_redundant`).

## Why this is not circular

Antecedents come earlier on the trail. By induction along the trail, a redundant literal is false
whenever the literals that stay in the clause are (`holds_of_redundant`), although the definition of
`Redundant` lets a literal that was left out belong to the clause.

Two literals may each be explained through the other one being a member of the clause only if each
comes earlier than the other, which is impossible. This is why all redundant literals may be left
out together, and not only one of them.
-/

namespace CardSat

/-- The value of a variable follows from the ground level and the variables in `S`. -/
inductive Redundant (store : Store) (t : Trail) (S : Var → Prop) : Var → Prop
  | ground {v : Var} : t.levelOf v = 0 → Redundant store t S v
  | member {v : Var} : S v → Redundant store t S v
  | step {v : Var} {h : Handle} {c : Constraint} {as : List Lit} :
      t.reasonOf v = some h → store.get? h = some c → c.antecedents t true = .ok as →
      (∀ a ∈ as, Redundant store t S a.var) → Redundant store t S v

/-- All antecedents of the value of a variable are redundant. -/
def Explained (store : Store) (t : Trail) (S : Var → Prop) (v : Var) : Prop :=
  ∃ h c as, t.reasonOf v = some h ∧ store.get? h = some c ∧ c.antecedents t true = .ok as ∧
    ∀ a ∈ as, Redundant store t S a.var

/-- What is explained is redundant by its last step. -/
theorem Explained.redundant {store : Store} {t : Trail} {S : Var → Prop} {v : Var}
    (h : Explained store t S v) : Redundant store t S v := by
  obtain ⟨h, c, as, hr, hc, has, hall⟩ := h
  exact .step hr hc has hall

namespace Network

variable {n : Network} {R : World → Prop} {S : Var → Prop} {w : World}

/-- Redundant literals hold if those of the variables in `S` that are not explained do. -/
theorem holds_of_redundant (hs : n.Justified) (hr : n.Sound R) (hw : R w)
    (hS : ∀ m ∈ n.trail, S m.var → m.holds w = true ∨ Explained n.store n.trail S m.var) :
    ∀ m ∈ n.trail, Redundant n.store n.trail S m.var → m.holds w = true := by
  suffices ∀ (i : Nat) (m : Lit), n.trail.lits.toList[i]? = some m →
      Redundant n.store n.trail S m.var → m.holds w = true by
    intro m hm hred
    obtain ⟨i, hi⟩ := List.mem_iff_getElem?.1 hm
    exact this i m hi hred
  intro i
  induction i using Nat.strongRecOn with
  | ind i ih =>
      intro m hi hred
      have hm : m ∈ n.trail := List.mem_of_getElem? hi
      have hexplained : Explained n.store n.trail S m.var → m.holds w = true := by
        rintro ⟨h, c, as, hreason, hc, has, hall⟩
        obtain ⟨hneg, himp⟩ := implied_of_reason hs hr hi hreason hc has
        refine (himp w hw).resolve_right ?_
        rintro ⟨a, ha, haw⟩
        -- the antecedent is false by induction
        obtain ⟨j, hj⟩ := List.mem_iff_getElem?.1 (hneg a ha)
        rw [List.getElem?_take] at hj
        split at hj
        next hlt =>
            have := ih j hlt a.neg hj (hall a ha)
            rw [Lit.holds_neg, haw] at this
            cases this
        next => cases hj
      cases hred with
      | ground hzero => exact hr.ground w hw m hm hzero
      | member hmem =>
          rcases hS m hm hmem with hmw | he
          · exact hmw
          · exact hexplained he
      | step hreason hc has hall => exact hexplained ⟨_, _, _, hreason, hc, has, hall⟩

end Network

/-! ## The search

A variable is marked as part of the clause, as removable or as failed, and only the first two kinds
of marks are relied upon. The search never marks a variable as part of the clause, so those that are
come from the derivation. -/

variable {store : Store} {t : Trail} {S : Var → Prop} {p p' : Probe} {l : Lit} {b : Bool}

/-- The marks of a search say the truth, and those it made are listed. -/
structure Probe.Sensible (store : Store) (t : Trail) (S : Var → Prop) (p : Probe) : Prop where
  inClause : ∀ v, p.marks.markOf v = .inClause → S v
  removable : ∀ v, p.marks.markOf v = .removable → Redundant store t S v
  touched : ∀ v, p.marks.markOf v ≠ .clear → S v ∨ v ∈ p.touched.map Lit.var

/-- Noting the answer for a literal keeps the marks right: a new mark is `failed`, which promises
nothing, or `removable` for a redundant variable. It is listed with those touched. -/
theorem Probe.sensible_note {mark : Mark} (hp : p.Sensible store t S)
    (hm : mark = .failed ∨ mark = .removable ∧ Redundant store t S l.var)
    (h : p.note l mark = .ok p') : p'.Sensible store t S := by
  simp only [note, bind_eq_ok] at h
  obtain ⟨x, hx, h⟩ := h
  split at h
  next =>
      simp only [bind_eq_ok, pure_eq_ok] at h
      obtain ⟨marks, hset, rfl⟩ := h
      have hmarks := Marks.set_eq_ok hset
      refine ⟨fun v hv => ?_, fun v hv => ?_, fun v hv => ?_⟩
      · simp only [hmarks] at hv
        split at hv
        next =>
            subst hv
            rcases hm with hm | ⟨hm, -⟩ <;> cases hm
        next => exact hp.inClause v hv
      · simp only [hmarks] at hv
        split at hv
        next he =>
            subst hv
            rcases hm with hm | ⟨-, hred⟩
            · cases hm
            · exact he ▸ hred
        next => exact hp.removable v hv
      · simp only [hmarks] at hv
        split at hv
        next he => exact Or.inr (by simp [he])
        next =>
            rcases hp.touched v hv with hS | ht
            · exact Or.inl hS
            · exact Or.inr (List.mem_cons_of_mem _ ht)
  next =>
      obtain rfl := pure_eq_ok.1 h
      exact hp

/-- Going through a list of antecedents answers yes only if all of them are redundant. The first one
that is not ends it. -/
theorem sensible_of_allExplained {descend : Lit → Probe → Checked (Bool × Probe)}
    (hdescend : ∀ l p b p', p.Sensible store t S → descend l p = .ok (b, p') →
      p'.Sensible store t S ∧ (b = true → Explained store t S l.var)) :
    ∀ {lits : List Lit} {p : Probe}, p.Sensible store t S →
      allExplained t descend lits p = .ok (b, p') →
      p'.Sensible store t S ∧ (b = true → ∀ a ∈ lits, Redundant store t S a.var) := by
  intro lits
  induction lits with
  | nil =>
      intro p hp h
      simp only [allExplained, pure_eq_ok, Prod.mk.injEq] at h
      obtain ⟨-, rfl⟩ := h
      exact ⟨hp, by simp⟩
  | cons l lits ih =>
      intro p hp h
      simp only [allExplained, bind_eq_ok, Trail.cell_eq_ok] at h
      obtain ⟨cell, ⟨-, rfl⟩, mark, hmark, h⟩ := h
      have hmark := Marks.of_eq_ok hmark
      -- if the first literal is redundant, the others decide
      have hrest : ∀ q, q.Sensible store t S → Redundant store t S l.var →
          allExplained t descend lits q = .ok (b, p') →
          p'.Sensible store t S ∧ (b = true → ∀ a ∈ l :: lits, Redundant store t S a.var) := by
        intro q hq hred h
        obtain ⟨hp', hall⟩ := ih hq h
        refine ⟨hp', fun hb a ha => ?_⟩
        rcases List.mem_cons.1 ha with rfl | ha
        · exact hred
        · exact hall hb a ha
      split at h
      next hknown =>
          refine hrest p hp ?_ h
          rcases hknown with hzero | hin | hrem
          · exact .ground hzero
          · exact .member (hp.inClause _ (hmark.trans hin))
          · exact hp.removable _ (hmark.trans hrem)
      next =>
          split at h
          next =>
              simp only [pure_eq_ok, Prod.mk.injEq] at h
              obtain ⟨rfl, rfl⟩ := h
              exact ⟨hp, by simp⟩
          next =>
              simp only [bind_eq_ok] at h
              obtain ⟨⟨b₁, p₁⟩, hd, h⟩ := h
              obtain ⟨hp₁, hex⟩ := hdescend l p b₁ p₁ hp hd
              cases b₁ with
              | true => exact hrest p₁ hp₁ (hex rfl).redundant h
              | false =>
                  simp only [pure_eq_ok, Prod.mk.injEq] at h
                  obtain ⟨rfl, rfl⟩ := h
                  exact ⟨hp₁, by simp⟩

/-- The search for one literal answers yes only if all its antecedents are redundant. -/
theorem sensible_of_redundantWithin : ∀ (depth : Nat) (l : Lit) (p : Probe) (b : Bool)
    (p' : Probe), p.Sensible store t S → redundantWithin store t depth l p = .ok (b, p') →
      p'.Sensible store t S ∧ (b = true → Explained store t S l.var) := by
  intro depth
  induction depth with
  | zero =>
      intro l p b p' _ h
      simp [redundantWithin, throw_ne_ok] at h
  | succ depth ih =>
      intro l p b p' hp h
      simp only [redundantWithin, bind_eq_ok, Trail.cell_eq_ok] at h
      obtain ⟨cell, ⟨-, rfl⟩, h⟩ := h
      split at h
      next =>
          simp only [pure_eq_ok, Prod.mk.injEq] at h
          obtain ⟨rfl, rfl⟩ := h
          exact ⟨hp, by simp⟩
      next a hreason =>
          simp only [bind_eq_ok, pure_eq_ok, Store.fetch_eq_ok] at h
          obtain ⟨c, hc, as, has, ⟨explained, p₁⟩, hall, p₂, hnote, heq⟩ := h
          obtain ⟨rfl, rfl⟩ := Prod.mk.inj heq
          obtain ⟨hp₁, hred⟩ := sensible_of_allExplained ih hp hall
          have hex : explained = true → Explained store t S l.var := fun hb =>
            ⟨a, c, as, hreason, hc, has, hred hb⟩
          refine ⟨Probe.sensible_note hp₁ ?_ hnote, hex⟩
          cases explained with
          | true => exact Or.inr ⟨rfl, (hex rfl).redundant⟩
          | false => exact Or.inl rfl

/-- What the search finds redundant is explained. -/
theorem sensible_of_redundant (hp : p.Sensible store t S)
    (h : redundant store t l p = .ok (b, p')) :
    p'.Sensible store t S ∧ (b = true → Explained store t S l.var) :=
  sensible_of_redundantWithin _ l p b p' hp h

/-- A literal whose antecedents belong to the clause is explained. -/
theorem explained_of_directlyRedundant {marks : Marks}
    (hS : ∀ v, marks.markOf v ≠ .clear → S v)
    (h : directlyRedundant store t marks l = .ok true) : Explained store t S l.var := by
  simp only [directlyRedundant, bind_eq_ok, Trail.cell_eq_ok] at h
  obtain ⟨cell, ⟨-, rfl⟩, h⟩ := h
  split at h
  next => cases pure_eq_ok.1 h
  next a hreason =>
      simp only [bind_eq_ok, Store.fetch_eq_ok] at h
      obtain ⟨c, hc, as, has, h⟩ := h
      refine ⟨a, c, as, hreason, hc, has, fun b hb => ?_⟩
      have hall := allM_ok (p := fun b => decide (marks.markOf b.var ≠ .clear) ||
        decide (t.levelOf b.var = 0)) (by
          intro b _ r hr
          simp only [bind_eq_ok, pure_eq_ok, Trail.cell_eq_ok] at hr
          obtain ⟨x, hx, cell, ⟨-, rfl⟩, rfl⟩ := hr
          rw [← Marks.of_eq_ok hx]
          rfl) h
      have := List.all_eq_true.1 hall.symm b hb
      rcases (by simpa using this : ¬ marks.markOf b.var = .clear ∨ t.levelOf b.var = 0) with hm | hz
      · exact .member (hS _ hm)
      · exact .ground hz

end CardSat
