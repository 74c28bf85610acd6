import CardSat.Constraint.Status
import CardSat.Proofs.Counting
import CardSat.Proofs.Trail

set_option autoImplicit false

/-! # Constraints and what they force

A stored constraint is `WellFormed`: its literals have distinct known variables, and an at-most
constraint has a bound above zero and below its length. Rearranging its literals or changing the
activity of a learnt clause leaves it the `Same`.

On a trail, a constraint can be `Falsified`, it `Explains` a literal that it forced, and it is
`Supported` under a watched literal when that literal needs no more attention. The lemmas
`antecedents_of_explains` and `antecedents_of_falsified` say what the antecedents of a constraint
mean in these two cases: they are false, and the constraint implies that one of them, or the forced
literal, is true.

## Conventions

Lists, not arrays: the literals of a constraint are read as `c.lits.toList`, the watched ones are a
prefix of it (`watchedLits`), and the keys under which a constraint is found in the watch index are
these literals for an at-most constraint and their complements for a clause. So a key is always a
literal that calls the constraint up when it becomes true.

A clause is told from an at-most constraint by `isAtMost`, since given and learnt clauses are
treated alike here. Whatever is said about an at-most constraint names its bound.
-/

namespace CardSat

/-- A kind without the activity of a learnt clause. -/
def Kind.plain : Kind → Kind
  | .learnt _ serial => .learnt 0.0 serial
  | k => k

namespace Constraint

/-! ## Well-formed constraints

The store holds well-formed constraints only. What else is known of their literals follows: they are
distinct, no two of them are complementary, and there are enough of them to be watched. -/

/-- A constraint over the first `n` variables as the store holds them. -/
structure WellFormed (c : Constraint) (n : Nat) : Prop where
  distinct : (c.lits.toList.map Lit.var).Nodup
  known : ∀ l ∈ c.lits.toList, l.var.index < n
  two_le : 2 ≤ c.size
  bounds : ∀ k, c.kind = .atMost k → 0 < k ∧ k < c.size

/-- At-most constraints are those with a bound. -/
theorem isAtMost_eq_true {c : Constraint} : c.isAtMost = true ↔ ∃ k, c.kind = .atMost k := by
  unfold isAtMost
  split
  next k hk => simp [hk]
  next h => simpa using fun k hk => h k hk

/-- A constraint with a bound is an at-most constraint. -/
theorem isAtMost_of_kind {c : Constraint} {k : Nat} (h : c.kind = .atMost k) :
    c.isAtMost = true := isAtMost_eq_true.2 ⟨k, h⟩

/-- A clause has no bound. -/
theorem kind_ne_atMost {c : Constraint} (h : c.isAtMost = false) (k : Nat) : c.kind ≠ .atMost k :=
  fun hk => by
    rw [isAtMost_of_kind hk] at h
    cases h

/-- A clause watches two literals. -/
theorem watchers_clause {c : Constraint} (h : c.isAtMost = false) : c.watchers = 2 := by
  unfold watchers
  split
  next k hk => exact absurd hk (kind_ne_atMost h k)
  next => rfl

/-- Of an at-most constraint, as many literals are watched as have to be false for the bound not to
matter, and one more. -/
theorem WellFormed.watchers_atMost {c : Constraint} {n k : Nat} (hc : c.WellFormed n)
    (hk : c.kind = .atMost k) : c.watchers + k = c.size + 1 := by
  have := (hc.bounds k hk).2
  simp only [watchers, hk]
  rw [if_pos (by omega)]
  omega

/-- There are enough literals to be watched. -/
theorem WellFormed.watchers_le {c : Constraint} {n : Nat} (hc : c.WellFormed n) :
    c.watchers ≤ c.size := by
  cases ha : c.isAtMost with
  | false => rw [watchers_clause ha]; exact hc.two_le
  | true =>
      obtain ⟨k, hk⟩ := isAtMost_eq_true.1 ha
      have := hc.watchers_atMost hk
      have := (hc.bounds k hk).1
      omega

/-- A constraint stays well formed when variables are added. -/
theorem WellFormed.mono {c : Constraint} {n m : Nat} (hc : c.WellFormed n) (h : n ≤ m) :
    c.WellFormed m :=
  ⟨hc.distinct, fun l hl => Nat.lt_of_lt_of_le (hc.known l hl) h, hc.two_le, hc.bounds⟩

/-- The literals are distinct, as their variables are. -/
theorem WellFormed.nodup {c : Constraint} {n : Nat} (hc : c.WellFormed n) : c.lits.toList.Nodup :=
  hc.distinct.of_map

/-- A variable occurs in one literal only. -/
theorem WellFormed.eq_of_var_eq {c : Constraint} {n : Nat} (hc : c.WellFormed n) {a b : Lit}
    (ha : a ∈ c.lits.toList) (hb : b ∈ c.lits.toList) (h : a.var = b.var) : a = b :=
  List.inj_on_of_nodup_map hc.distinct ha hb h

/-- The complement of a literal does not occur. -/
theorem WellFormed.neg_not_mem {c : Constraint} {n : Nat} (hc : c.WellFormed n) {a : Lit}
    (ha : a ∈ c.lits.toList) : a.neg ∉ c.lits.toList := by
  intro hn
  exact Lit.neg_ne a (hc.eq_of_var_eq hn ha rfl)

/-- The watched literals, as a list. -/
def watchedLits (c : Constraint) : List Lit := c.lits.toList.take c.watchers

/-- The literals that call a constraint up when they become true. -/
def keys (c : Constraint) : List Lit :=
  if c.isAtMost then c.watchedLits else c.watchedLits.map Lit.neg

/-- The model reads the watched literals from the array. -/
theorem watched_eq_ok {c : Constraint} {ls : List Lit} (h : c.watched = .ok ls) :
    ls = c.watchedLits := by
  simp only [watched, bind_eq_ok, require_eq_ok, pure_eq_ok] at h
  obtain ⟨_, -, rfl⟩ := h
  rfl

/-- The model reads the keys from the array. -/
theorem watchKeys_eq_ok {c : Constraint} {ls : List Lit} (h : c.watchKeys = .ok ls) :
    ls = c.keys := by
  simp only [watchKeys, bind_eq_ok, pure_eq_ok] at h
  obtain ⟨ms, hms, rfl⟩ := h
  rw [watched_eq_ok hms, keys]

/-- Watched literals are literals of the constraint. -/
theorem mem_of_mem_watchedLits {c : Constraint} {l : Lit} (h : l ∈ c.watchedLits) :
    l ∈ c.lits.toList := List.mem_of_mem_take h

/-- An at-most constraint is found under its watched literals. -/
theorem keys_atMost {c : Constraint} (h : c.isAtMost = true) : c.keys = c.watchedLits := by
  rw [keys, if_pos h]

/-- A clause is found under the complements of its watched literals. -/
theorem keys_clause {c : Constraint} (h : c.isAtMost = false) :
    c.keys = c.watchedLits.map Lit.neg := by
  rw [keys, if_neg (by simp [h])]

/-- A key of a clause is the complement of a watched literal. -/
theorem mem_keys_clause {c : Constraint} (h : c.isAtMost = false) {l : Lit} :
    l ∈ c.keys ↔ l.neg ∈ c.watchedLits := by
  rw [keys_clause h, List.mem_map]
  constructor
  · rintro ⟨m, hm, rfl⟩
    rwa [Lit.neg_neg]
  · intro hl
    exact ⟨l.neg, hl, Lit.neg_neg l⟩

/-- Keys are literals of known variables. -/
theorem WellFormed.known_of_mem_keys {c : Constraint} {n : Nat} (hc : c.WellFormed n) {l : Lit}
    (hl : l ∈ c.keys) : l.var.index < n := by
  rw [keys] at hl
  split at hl
  · exact hc.known l (mem_of_mem_watchedLits hl)
  · obtain ⟨m, hm, rfl⟩ := List.mem_map.1 hl
    exact hc.known m (mem_of_mem_watchedLits hm)

/-! ## The same constraint

Propagation moves literals around, and conflicts change the activity of learnt clauses. Neither
changes what the constraint demands, nor its kind, its length or its serial number. -/

/-- Two constraints that demand the same: the literals may be rearranged and the activity of a
learnt clause may differ. -/
structure Same (c c' : Constraint) : Prop where
  kind : c'.kind.plain = c.kind.plain
  perm : c'.lits.toList.Perm c.lits.toList

namespace Same

variable {c c' c'' : Constraint}

/-- A constraint is the same as itself. -/
theorem refl (c : Constraint) : c.Same c := ⟨rfl, List.Perm.refl _⟩

/-- Rearranging twice. -/
theorem trans (h : c.Same c') (h' : c'.Same c'') : c.Same c'' :=
  ⟨h'.kind.trans h.kind, h'.perm.trans h.perm⟩

/-- The literals are the same. -/
theorem mem_iff (h : c.Same c') {l : Lit} : l ∈ c'.lits.toList ↔ l ∈ c.lits.toList :=
  h.perm.mem_iff

/-- The length is the same. -/
theorem size_eq (h : c.Same c') : c'.size = c.size := by
  rw [size, ← Array.length_toList, h.perm.length_eq, Array.length_toList, size]

/-- The bound is the same. -/
theorem kind_atMost (h : c.Same c') {k : Nat} : c'.kind = .atMost k ↔ c.kind = .atMost k := by
  have := h.kind
  cases hk : c.kind <;> cases hk' : c'.kind <;> simp_all [Kind.plain]

/-- Clauses stay clauses, and at-most constraints stay what they are. -/
theorem isAtMost_eq (h : c.Same c') : c'.isAtMost = c.isAtMost := by
  rw [Bool.eq_iff_iff, isAtMost_eq_true, isAtMost_eq_true]
  simp only [h.kind_atMost]

/-- Learnt clauses stay learnt. -/
theorem isLearnt_eq (h : c.Same c') : c'.isLearnt = c.isLearnt := by
  have := h.kind
  unfold isLearnt
  cases hk : c.kind <;> cases hk' : c'.kind <;> simp_all [Kind.plain]

/-- The serial number is the same. -/
theorem serial?_eq (h : c.Same c') : c'.serial? = c.serial? := by
  have := h.kind
  unfold serial?
  cases hk : c.kind <;> cases hk' : c'.kind <;> simp_all [Kind.plain]

/-- As many literals are watched. -/
theorem watchers_eq (h : c.Same c') : c'.watchers = c.watchers := by
  have := h.kind
  unfold watchers
  rw [h.size_eq]
  cases hk : c.kind <;> cases hk' : c'.kind <;> simp_all [Kind.plain]

/-- The constraint stays well formed. -/
theorem wellFormed {n : Nat} (h : c.Same c') (hc : c.WellFormed n) : c'.WellFormed n where
  distinct := (h.perm.map Lit.var).nodup_iff.2 hc.distinct
  known l hl := hc.known l (h.mem_iff.1 hl)
  two_le := h.size_eq ▸ hc.two_le
  bounds k hk := h.size_eq ▸ hc.bounds k (h.kind_atMost.1 hk)

/-- The constraint holds in the same worlds. -/
theorem holds_eq (h : c.Same c') (w : World) : c'.holds w = c.holds w := by
  cases ha : c.isAtMost with
  | false =>
      rw [holds_of_not_isAtMost ha, holds_of_not_isAtMost (h.isAtMost_eq.trans ha)]
      exact World.clauseHolds_congr fun l => h.mem_iff
  | true =>
      obtain ⟨k, hk⟩ := isAtMost_eq_true.1 ha
      rw [holds_of_atMost hk, holds_of_atMost (h.kind_atMost.2 hk)]
      exact World.atMostHolds_congr (fun l => h.mem_iff) k

/-- Activities do not matter. -/
theorem of_lits_eq (hk : c'.kind.plain = c.kind.plain) (hl : c'.lits = c.lits) : c.Same c' :=
  ⟨hk, by rw [hl]⟩

end Same

/-- Exchanging two literals. -/
theorem same_swap {c c' : Constraint} {i j : Nat} (h : c.swap i j = .ok c') : c.Same c' := by
  simp only [swap, bind_eq_ok, require_eq_ok, pure_eq_ok, decide_eq_true_eq] at h
  obtain ⟨_, ⟨hi, hj⟩, rfl⟩ := h
  refine ⟨rfl, ?_⟩
  rw [Array.swapIfInBounds_def, dif_pos (show i < c.lits.size from hi),
    dif_pos (show j < c.lits.size from hj)]
  exact (Array.swap_perm hi hj).toList

/-! ## Constraints on a trail

The three notions are about the values on the trail and their levels. `Explains` also takes the
literals that were there before, because an at-most constraint that has reached its bound may have
more true literals later, of which only the earlier ones count. -/

/-- The assignment violates the constraint. -/
structure Falsified (c : Constraint) (t : Trail) : Prop where
  clause : c.isAtMost = false → ∀ l ∈ c.lits.toList, l.neg ∈ t
  atMost : ∀ k, c.kind = .atMost k → k < c.lits.toList.countP fun l => t.truth l = .yes

/-- The constraint forced `m` when the literals `before` were true: `m` is the first literal of
a clause whose others are false, or its complement belongs to an at-most constraint that has
reached its bound. -/
structure Explains (c : Constraint) (t : Trail) (before : List Lit) (m : Lit) : Prop where
  clause : c.isAtMost = false →
    c.lits.toList.head? = some m ∧ ∀ a ∈ c.lits.toList.tail, a.neg ∈ before
  atMost : ∀ k, c.kind = .atMost k →
    m.neg ∈ c.lits.toList ∧ (c.lits.toList.countP fun l => l ∈ before) = k ∧
      ∀ l ∈ c.lits.toList, l ∈ before ∨ l.neg ∈ t ∧ t.levelOf l.var ≤ t.levelOf m.var

/-- Nothing more can come of `key` being true: some literal of the clause is true, or the other
watched literals of the at-most constraint are false, and that not later than `key`. -/
structure Supported (c : Constraint) (t : Trail) (key : Lit) : Prop where
  clause : c.isAtMost = false →
    ∃ b ∈ c.lits.toList, b ∈ t ∧ t.levelOf b.var ≤ t.levelOf key.var
  atMost : c.isAtMost = true →
    ∀ l ∈ c.watchedLits, l ≠ key → l.neg ∈ t ∧ t.levelOf l.var ≤ t.levelOf key.var

/-- A true literal supports a clause. -/
theorem supported_of_true {c : Constraint} {t : Trail} {b key : Lit} (ha : c.isAtMost = false)
    (hb : b ∈ c.lits.toList) (hbt : b ∈ t) (hle : t.levelOf b.var ≤ t.levelOf key.var) :
    c.Supported t key := by
  refine ⟨fun _ => ⟨b, hb, hbt, hle⟩, fun hat => ?_⟩
  rw [ha] at hat
  cases hat

/-- The antecedents of a clause are its literals, but for the first one if the clause is a
reason. -/
theorem antecedents_clause {c : Constraint} {t : Trail} {skip : Bool} {as : List Lit}
    (hc : c.isAtMost = false) (h : c.antecedents t skip = .ok as) :
    as = if skip then c.lits.toList.tail else c.lits.toList := by
  unfold antecedents at h
  split at h
  next k hk => exact absurd hk (kind_ne_atMost hc k)
  next =>
      simp only [bind_eq_ok, pure_eq_ok] at h
      obtain ⟨_, -, rfl⟩ := h
      rw [List.drop_one]

/-- The antecedents of an at-most constraint are the complements of its true literals. -/
theorem antecedents_atMost {c : Constraint} {t : Trail} {skip : Bool} {as : List Lit} {k : Nat}
    (hc : c.kind = .atMost k) (h : c.antecedents t skip = .ok as) :
    as = (c.lits.toList.filter fun l => t.truth l = .yes).map Lit.neg := by
  simp only [antecedents, hc, bind_eq_ok, pure_eq_ok] at h
  obtain ⟨ts, hts, rfl⟩ := h
  rw [filterM_ok (fun a _ r hr => (Trail.isTrue_eq_ok hr).2) hts]

/-- More than `k` true literals violate an at-most constraint: when `m` counts on top of `k`
literals that hold, one of them does not hold. -/
theorem exists_not_holds {c : Constraint} {k n : Nat} {w : World} {p : Lit → Bool}
    (hc : c.WellFormed n) (hk : c.kind = .atMost k) (hw : c.holds w = true)
    (hp : k < c.lits.toList.countP p) : ∃ l ∈ c.lits.toList, p l = true ∧ l.holds w = false := by
  by_contra hno
  push Not at hno
  rw [holds_of_atMost hk, World.atMostHolds, World.count_of_nodup hc.nodup,
    decide_eq_true_iff] at hw
  have : c.lits.toList.countP p ≤ c.lits.toList.countP (Lit.holds w) :=
    List.countP_mono_left fun l hl hpl => by simpa using hno l hl hpl
  omega

/-- The antecedents of a violated constraint are false, and one of them has to be true. -/
theorem antecedents_of_falsified {c : Constraint} {t : Trail} {n : Nat} {as : List Lit}
    (hv : t.Valid) (hc : c.WellFormed n) (hf : c.Falsified t)
    (h : c.antecedents t false = .ok as) :
    (∀ a ∈ as, a.neg ∈ t) ∧ ∀ w, c.holds w = true → ∃ a ∈ as, a.holds w = true := by
  cases ha : c.isAtMost with
  | false =>
      obtain rfl := antecedents_clause ha h
      refine ⟨hf.clause ha, fun w hw => ?_⟩
      rwa [holds_of_not_isAtMost ha, World.clauseHolds_iff] at hw
  | true =>
      obtain ⟨k, hk⟩ := isAtMost_eq_true.1 ha
      obtain rfl := antecedents_atMost hk h
      constructor
      · intro a ha
        obtain ⟨l, hl, rfl⟩ := List.mem_map.1 ha
        rw [Lit.neg_neg, ← hv.truth_yes]
        simpa using (List.mem_filter.1 hl).2
      · intro w hw
        obtain ⟨l, hl, hlt, hlw⟩ := exists_not_holds hc hk hw (hf.atMost k hk)
        exact ⟨l.neg, List.mem_map_of_mem (List.mem_filter.2 ⟨hl, hlt⟩), by simp [hlw]⟩

/-- If none of the literals that explain a forced literal is otherwise, it has to be true. -/
theorem Explains.forces {c : Constraint} {t : Trail} {n : Nat} {before : List Lit} {m : Lit}
    {w : World} (he : c.Explains t before m) (hv : t.Valid) (hc : c.WellFormed n)
    (hb : ∀ l ∈ before, l ∈ t) (hm : m ∈ t) (hw : c.holds w = true)
    (hclause : c.isAtMost = false → ∀ a ∈ c.lits.toList.tail, a.holds w = false)
    (hatMost : c.isAtMost = true → ∀ l ∈ c.lits.toList, l ∈ before → l.holds w = true) :
    m.holds w = true := by
  cases ha : c.isAtMost with
  | false =>
      obtain ⟨hhead, htail⟩ := he.clause ha
      rw [holds_of_not_isAtMost ha, World.clauseHolds_iff] at hw
      obtain ⟨l, hl, hlw⟩ := hw
      obtain ⟨ls, hls⟩ := List.head?_eq_some_iff.1 hhead
      have hcl := hclause ha
      rw [hls] at hl hcl
      rcases List.mem_cons.1 hl with rfl | hl
      · exact hlw
      · rw [hcl l hl] at hlw
        cases hlw
  | true =>
      obtain ⟨k, hk⟩ := isAtMost_eq_true.1 ha
      obtain ⟨hmc, hcount, -⟩ := he.atMost k hk
      by_contra hmw
      -- the literals true before `m`, and the complement of `m`, are more than the bound
      have hmb : m.neg ∉ before := fun hmem => hv.neg_not_mem hm (hb _ hmem)
      have hlt : k < c.lits.toList.countP fun l => decide (l ∈ before) || decide (l = m.neg) := by
        rw [← hcount]
        exact countP_lt_countP (by simp +contextual) hmc (by simp) (by simpa using hmb)
      obtain ⟨l, hlc, hl, hlw⟩ := exists_not_holds hc hk hw hlt
      rcases (by simpa using hl : l ∈ before ∨ l = m.neg) with hl | rfl
      · simp [hatMost ha l hlc hl] at hlw
      · simp [hmw] at hlw

/-- The antecedents of a forced literal are false and came before it, and if none of them is
true, the forced literal has to be. -/
theorem antecedents_of_explains {c : Constraint} {t : Trail} {n : Nat} {before as : List Lit}
    {m : Lit} (hv : t.Valid) (hc : c.WellFormed n) (hb : ∀ l ∈ before, l ∈ t) (hm : m ∈ t)
    (he : c.Explains t before m) (h : c.antecedents t true = .ok as) :
    (∀ a ∈ as, a.neg ∈ before) ∧
      ∀ w, c.holds w = true → m.holds w = true ∨ ∃ a ∈ as, a.holds w = true := by
  -- where all antecedents are false, the constraint forces the literal
  have himp : ∀ w, c.holds w = true → (∀ a ∈ as, a.holds w = false) → m.holds w = true := by
    intro w hw haw
    refine he.forces hv hc hb hm hw ?_ ?_
    · intro ha a hat
      obtain rfl := antecedents_clause ha h
      exact haw a hat
    · intro ha l hl hlb
      obtain ⟨k, hk⟩ := isAtMost_eq_true.1 ha
      obtain rfl := antecedents_atMost hk h
      have hlt := (hv.truth_yes l).2 (hb l hlb)
      simpa using haw l.neg (List.mem_map_of_mem (List.mem_filter.2 ⟨hl, by simpa using hlt⟩))
  refine ⟨?_, fun w hw => ?_⟩
  · cases ha : c.isAtMost with
    | false =>
        obtain rfl := antecedents_clause ha h
        exact (he.clause ha).2
    | true =>
        obtain ⟨k, hk⟩ := isAtMost_eq_true.1 ha
        obtain rfl := antecedents_atMost hk h
        intro a hat
        obtain ⟨l, hl, rfl⟩ := List.mem_map.1 hat
        obtain ⟨hlc, hlt⟩ := List.mem_filter.1 hl
        rw [decide_eq_true_iff, hv.truth_yes] at hlt
        rw [Lit.neg_neg]
        rcases (he.atMost k hk).2.2 l hlc with hbef | ⟨hneg, -⟩
        · exact hbef
        · exact absurd hneg (hv.neg_not_mem hlt)
  · by_cases haw : ∃ a ∈ as, a.holds w = true
    · exact Or.inr haw
    · push Not at haw
      exact Or.inl (himp w hw fun a ha => by simpa using haw a ha)

/-! ## Satisfied constraints

A constraint that is satisfied may be removed at the ground level, and one that is not has no true
literal if it is a clause. -/

/-- A constraint that the assignment satisfies holds wherever the literals of the trail do. -/
theorem holds_of_isSatisfied {c : Constraint} {t : Trail} {n : Nat} {w : World} (hv : t.Valid)
    (hc : c.WellFormed n) (h : c.isSatisfied t = .ok true) (hw : ∀ l ∈ t, l.holds w = true) :
    c.holds w = true := by
  cases ha : c.isAtMost with
  | false =>
      rw [holds_of_not_isAtMost ha, World.clauseHolds_iff]
      unfold isSatisfied at h
      split at h
      next k hk => exact absurd hk (kind_ne_atMost ha k)
      next =>
          have hany := anyM_ok (p := fun l => decide (t.truth l = .yes))
            (fun a _ r hr => (Trail.isTrue_eq_ok hr).2) h
          obtain ⟨l, hl, hlt⟩ := List.any_eq_true.1 hany.symm
          exact ⟨l, hl, hw l ((hv.truth_yes l).1 (by simpa using hlt))⟩
  | true =>
      obtain ⟨k, hk⟩ := isAtMost_eq_true.1 ha
      simp only [isSatisfied, hk, bind_eq_ok, pure_eq_ok, Bool.and_eq_true,
        decide_eq_true_eq] at h
      obtain ⟨falses, hfalses, hks, hle⟩ := h
      rw [filterM_ok (fun a _ r hr => (Trail.isFalse_eq_ok hr).2) hfalses,
        ← List.countP_eq_length_filter] at hle
      rw [holds_of_atMost hk, World.atMostHolds, World.count_of_nodup hc.nodup, decide_eq_true_iff]
      -- the literals that hold are among those that are not false
      have htrue : c.lits.toList.countP (Lit.holds w) ≤
          c.lits.toList.countP fun l => !decide (t.truth l = .no) := by
        refine List.countP_mono_left fun l _ hlw => ?_
        simp only [Bool.not_eq_true', decide_eq_false_iff_not, hv.truth_no]
        intro hneg
        have := hw l.neg hneg
        rw [Lit.holds_neg, hlw] at this
        cases this
      have hlen := List.length_eq_countP_add_countP (fun l => decide (t.truth l = .no))
        (l := c.lits.toList)
      rw [Array.length_toList] at hlen
      have hnot : c.lits.toList.countP (fun l => !decide (t.truth l = .no)) =
          c.lits.toList.countP (fun l => decide ¬ decide (t.truth l = .no) = true) :=
        List.countP_congr fun l _ => by simp
      rw [size] at hle
      omega

/-- A clause that is not satisfied has no true literal. -/
theorem not_mem_of_isSatisfied {c : Constraint} {t : Trail} (hv : t.Valid)
    (ha : c.isAtMost = false) (h : c.isSatisfied t = .ok false) : ∀ l ∈ c.lits.toList, l ∉ t := by
  unfold isSatisfied at h
  split at h
  next k hk => exact absurd hk (kind_ne_atMost ha k)
  next =>
      have hany := anyM_ok (p := fun l => decide (t.truth l = .yes))
        (fun a _ r hr => (Trail.isTrue_eq_ok hr).2) h
      intro l hl hlt
      have := List.any_eq_false.1 hany.symm l hl
      exact this (by simpa using (hv.truth_yes l).2 hlt)

end Constraint

end CardSat
