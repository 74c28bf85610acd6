import CardSat.Proofs.Network.Tended
import CardSat.Proofs.Propagation
import CardSat.Proofs.Trail.Operations

set_option autoImplicit false

/-! # Propagation returns

In a sane and tended network no step of a propagation is refused, and the literals that wait are
fewer than the fuel, so `propagate` has a result (`returns_of_propagate`), and the network is tended
afterwards. The lemmas follow the definitions: scanning an at-most constraint, visiting a watcher
(`Handled`), going through a line, emptying the queue.

What could be refused is a lookup: of a value, of a line of the index, of a literal of a constraint,
of the constraint of a handle. The network is tended if there is a line for every literal of a known
variable and no line that was not cleaned holds a handle that is out of use. A constraint that is
well formed has known variables only, and enough literals for its watches. The one refusal that
depends on values is an assignment to a variable that has one already, and it is excluded by the
tests before it.

Termination is the fuel: a propagation takes a literal off the queue with every turn, and there are
no more literals on a trail than variables (`Trail.Valid.size_le`).
-/

namespace CardSat

namespace Constraint

variable {c : Constraint} {t : Trail} {n i j : Nat} {test : Lit → Checked Bool} {p : Lit}

/-- Two literals of a constraint can be exchanged. -/
theorem succeeds_swap (hi : i < c.size) (hj : j < c.size) : Succeeds (c.swap i j) :=
  succeeds_bind (succeeds_require _ (decide_eq_true ⟨hi, hj⟩)) fun _ _ => succeeds_pure _

/-- The watched literals of a well-formed constraint can be listed. -/
theorem succeeds_watched (hc : c.WellFormed n) : Succeeds c.watched :=
  succeeds_bind (succeeds_require _ (decide_eq_true hc.watchers_le)) fun _ _ => succeeds_pure _

/-- The keys of a well-formed constraint can be listed. -/
theorem succeeds_watchKeys (hc : c.WellFormed n) : Succeeds c.watchKeys :=
  succeeds_bind (succeeds_watched hc) fun _ _ => succeeds_pure _

/-- A well-formed constraint has a first literal. -/
theorem succeeds_head (hc : c.WellFormed n) : Succeeds c.head :=
  succeeds_fetch (Nat.lt_of_lt_of_le (by decide) hc.two_le)

/-- A list can be searched with a test that is not refused on it. -/
theorem succeeds_findFrom {ls : List Lit} (h : ∀ l ∈ ls, Succeeds (test l)) (i : Nat) :
    Succeeds (findFrom test ls i) := by
  induction ls generalizing i with
  | nil => exact succeeds_ok none
  | cons l rest ih =>
      rw [findFrom]
      refine succeeds_bind (h l (by simp)) fun b _ => ?_
      split
      · exact succeeds_pure _
      · exact ih (fun m hm => h m (List.mem_cons_of_mem _ hm)) _

/-- An unwatched literal can be looked for and pulled to a watched place. -/
theorem succeeds_pull (h : ∀ l ∈ c.lits.toList, Succeeds (test l)) (hj : j < c.size) :
    Succeeds (c.pull j test) := by
  rw [pull]
  refine succeeds_bind (succeeds_findFrom (fun l hl => h l (List.mem_of_mem_drop hl)) _) ?_
  rintro (_ | i) hi
  · exact succeeds_pure _
  · obtain ⟨k, l, rfl, hk, -⟩ := findFrom_eq_some hi
    have hlt : c.watchers + k < c.size := by
      rw [List.getElem?_drop] at hk
      have := (List.getElem?_eq_some_iff.1 hk).1
      rwa [Array.length_toList] at this
    refine succeeds_bind (succeeds_swap hlt hj) fun c' hc' => ?_
    have hsize : c'.size = c.size := (same_swap hc').size_eq
    exact succeeds_bind (succeeds_fetch (Nat.lt_of_lt_of_le hj (Nat.le_of_eq hsize.symm)))
      fun _ _ => succeeds_pure _

/-- A scan of an at-most constraint is not refused. -/
theorem succeeds_atMostScan (hc : c.WellFormed t.varCount) : ∀ {lits : List Lit} {i : Nat}
    (falses trues : Nat), (∀ l ∈ lits, l ∈ c.lits.toList) → i + lits.length ≤ c.size →
    Succeeds (c.atMostScan t p lits i falses trues) := by
  intro lits
  induction lits with
  | nil => exact fun {i} falses trues _ _ => succeeds_pure _
  | cons l rest ih =>
      intro i falses trues hmem hi
      have hnext : ∀ falses trues, Succeeds (c.atMostScan t p rest (i + 1) falses trues) :=
        fun falses trues => ih falses trues (fun m hm => hmem m (List.mem_cons_of_mem _ hm))
          (by rw [List.length_cons] at hi; omega)
      rw [atMostScan]
      refine succeeds_bind (Trail.succeeds_value (hc.known l (hmem l (by simp)))) fun x _ => ?_
      cases x with
      | unset => exact hnext _ _
      | no =>
          dsimp only
          split
          · exact succeeds_pure _
          · exact hnext _ _
      | yes =>
          dsimp only
          split
          · exact succeeds_pure _
          · split
            -- a place among the watched literals is looked for only while it is within the
            -- constraint
            · refine succeeds_bind (succeeds_pull (fun m hm => ?_) ?_) ?_
              · exact succeeds_bind (Trail.succeeds_isTrue (hc.known m hm)) fun _ _ =>
                  succeeds_pure _
              · rw [List.length_cons] at hi
                omega
              · rintro (_ | ⟨q, c'⟩) -
                · exact hnext _ _
                · exact succeeds_pure _
            · exact hnext _ _

/-- The change of an at-most constraint can be found. -/
theorem succeeds_atMostChange (hc : c.WellFormed t.varCount) : Succeeds (c.atMostChange t p) := by
  refine succeeds_bind (succeeds_watched hc) fun ls hls => ?_
  obtain rfl := watched_eq_ok hls
  refine succeeds_atMostScan hc _ _ (fun l hl => mem_of_mem_watchedLits hl) ?_
  rw [Nat.zero_add, watchedLits, List.length_take, Array.length_toList]
  exact Nat.min_le_right _ _

end Constraint

/-- Literals that are not true can be made false, when no two of them are complementary. -/
theorem Trail.succeeds_forceFalse {t : Trail} {p : Lit} {ls : List Lit} (hv : t.Valid) (h : Handle)
    (hknown : ∀ l ∈ ls, l.var.index < t.varCount) (hneg : ∀ l ∈ ls, l.neg ∉ ls)
    (htrue : ∀ l ∈ ls, l ∈ t → l = p) : Succeeds (t.forceFalse p h ls) := by
  obtain ⟨t', ht', -⟩ := succeeds_foldlM (f := fun (t : Trail) l => do
      if l = p then return t
      else if ← t.isFalse l then return t
      else t.assign l.neg (some h))
    (fun rest t₁ => t₁.Valid ∧ t₁.varCount = t.varCount ∧ (∀ l ∈ rest, l ∈ ls) ∧
      ∀ l ∈ rest, l ∈ t₁ → l = p)
    (fun l rest t₁ ⟨hv₁, hcount, hsub, htrue₁⟩ => by
      have hsub' : ∀ m ∈ rest, m ∈ ls := fun m hm => hsub m (List.mem_cons_of_mem _ hm)
      have htrue' : ∀ m ∈ rest, m ∈ t₁ → m = p := fun m hm =>
        htrue₁ m (List.mem_cons_of_mem _ hm)
      have hl := hsub l (by simp)
      have hlt : l.var.index < t₁.varCount := hcount ▸ hknown l hl
      by_cases hlp : l = p
      · exact ⟨t₁, by rw [if_pos hlp]; rfl, hv₁, hcount, hsub', htrue'⟩
      obtain ⟨b, hb⟩ := succeeds_isFalse hlt
      simp only [if_neg hlp, hb, bind_eq_ok]
      cases b with
      | true => exact ⟨t₁, ⟨true, rfl, rfl⟩, hv₁, hcount, hsub', htrue'⟩
      | false =>
          -- the literal is neither false, by the test, nor true, since it is not `p`
          have hunset : t₁.truth l.neg = .unset := by
            rw [hv₁.truth_unset, Lit.neg_neg]
            refine ⟨fun hm => ?_, fun hm => hlp (htrue₁ l (by simp) hm)⟩
            cases (hv₁.isFalse_ok hb).2 hm
          obtain ⟨t₂, ht₂⟩ := succeeds_assign (l := l.neg) hlt hunset (some h)
          have ha := assigned_of_assign ht₂
          refine ⟨t₂, ⟨false, rfl, ht₂⟩, ha.valid hv₁, ha.varCount.trans hcount, hsub', ?_⟩
          intro m hm hmt
          rcases ha.mem_iff.1 hmt with hmt | rfl
          · exact htrue' m hm hmt
          · exact absurd (hsub' _ hm) (hneg l hl))
    ⟨hv, rfl, fun _ => id, htrue⟩
  exact ⟨t', ht'⟩

/-- The watcher that stays in its line after a visit. -/
def Visit.watcher? : Visit → Option Watcher
  | stay w => some w
  | leave => none
  | fail w => some w

namespace Network

variable {dead : Lit → Prop} {slack : Lit → Prop} {R : World → Prop} {p : Lit}
  {kept rest : List Watcher} {x : Watcher} {n n' : Network} {c : Constraint}

/-! ## One visit -/

/-- The visit to a watcher was not refused, and it left the network tended. -/
structure Handled (x : Watcher) (r : Checked (Visit × Network)) (v : Visit) (n' : Network) :
    Prop where
  returns : r = .ok (v, n')
  tended : n'.Tended
  handle : ∀ y, v.watcher? = some y → y.handle = x.handle

/-- A stored constraint was rearranged and put under another literal. -/
theorem Tended.moved (ht : n.Tended) {c' : Constraint} {l : Lit} {y : Watcher}
    {index : WatchIndex} (hc : n.store.get? x.handle = some c) (hs : c.Same c')
    (hy : y.handle = x.handle) (hp : n.index.push l y = .ok index) :
    Tended { n with store := n.store.put x.handle c', index := index } := by
  have ht' : Tended { n with store := n.store.put x.handle c' } := ht.same (.put hc hs)
  refine ht'.push hp ⟨c', ?_⟩
  rw [hy]
  show (n.store.put x.handle c').get? x.handle = some c'
  rw [Store.get?_put hc, if_pos rfl]

/-- A visit to an at-most constraint is not refused. If it forces literals, no two of them are
complementary, and none is true but the one that is propagated. -/
theorem handled_of_visitAtMost (hs : Scan dead slack R p (kept ++ x :: rest) (x :: rest) n)
    (ht : n.Tended) (hc : n.store.get? x.handle = some c) (ha : c.isAtMost = true) :
    ∃ v n', Handled x (n.visitAtMost p x c) v n' := by
  obtain ⟨k, hk⟩ := Constraint.isAtMost_eq_true.1 ha
  have hv := hs.sane.trail
  have hcf := hs.sane.formed _ c hc
  have hp : p ∈ c.watchedLits := Constraint.keys_atMost ha ▸ hs.mem_keys (by simp) hc
  obtain ⟨r, hr⟩ := Constraint.succeeds_atMostChange (p := p) hcf
  -- what the change says is right, so the trail takes each literal that it forces
  have hright := Constraint.atMostChange_right hv hcf hk hp hs.mem hr
  cases r with
  | keep => exact ⟨.stay x, n, by rw [visitAtMost, hr]; rfl, ht, fun _ hy => Option.some.inj hy ▸ rfl⟩
  | move l c' =>
      obtain ⟨i, -, hpull, -⟩ := hright
      have hlt := hcf.known l (List.mem_of_mem_drop hpull.unwatched)
      obtain ⟨index, hindex⟩ := WatchIndex.succeeds_modify (ht.covers.lt hlt)
        fun line => { line with watchers := line.watchers.push x }
      refine ⟨.leave, _, ?_, ht.moved hc hpull.same rfl hindex, fun _ hy => by cases hy⟩
      rw [visitAtMost, hr]
      show (n.index.push l x >>= _) = _
      rw [bind_eq_ok]
      exact ⟨index, hindex, rfl⟩
  | force =>
      obtain ⟨ls, hls⟩ := Constraint.succeeds_watched hcf
      obtain rfl := Constraint.watched_eq_ok hls
      obtain ⟨t, hforce⟩ := Trail.succeeds_forceFalse hv x.handle
        (fun l hl => hcf.known l (Constraint.mem_of_mem_watchedLits hl))
        (fun l hl hn => hcf.neg_not_mem (Constraint.mem_of_mem_watchedLits hl)
          (Constraint.mem_of_mem_watchedLits hn)) hright.1
      have hcount := (Trail.forced_of_forceFalse hv hs.sane.queued hforce).1.longer.varCount
      refine ⟨.stay x, _, ?_, ht.of_trail hcount, fun _ hy => Option.some.inj hy ▸ rfl⟩
      rw [visitAtMost, hr]
      show (c.watched >>= _) = _
      simp only [bind_eq_ok]
      exact ⟨_, hls, t, hforce, rfl⟩
  | fail => exact ⟨.fail x, n, by rw [visitAtMost, hr]; rfl, ht, fun _ hy => Option.some.inj hy ▸ rfl⟩

/-- A visit to a clause, once it is turned and its first literal read. -/
theorem visitClause_eq {l₀ first : Lit} {c₁ : Constraint} {satisfied : Bool}
    (hl₀ : c.head = .ok l₀)
    (hc₁ : (if l₀ = p.neg then c.swap 0 1 else pure c) = .ok c₁) (hfirst : c₁.head = .ok first)
    (hsat : (if some first ≠ x.blocker then n.trail.isTrue first else pure false)
      = .ok satisfied) : n.visitClause p x c = n.settleClause x c₁ first satisfied := by
  rw [visitClause_eq_bind, hl₀, ok_bind, hc₁, ok_bind, hfirst, ok_bind, hsat, ok_bind]

namespace Settles

variable {c₁ c₂ : Constraint} {first l : Lit}
  (h : Settles dead slack R p kept x rest n c c₁ first) (ht : n.Tended)
include h ht

/-- Storing the turned clause leaves the network tended. -/
theorem tended : Tended { n with store := n.store.put x.handle c₁ } :=
  ht.same (.put h.stored h.turned.same)

/-- Another literal is watched in place of the second one. -/
theorem handled_of_pulled (hpull : c₁.Pulled 1 l c₂) :
    ∃ n', Handled x (do
      return (.leave, { n with
        store := n.store.put x.handle c₂
        index := ← n.index.push l.neg ⟨x.handle, some first⟩ })) .leave n' := by
  have hlt : l.neg.var.index < n.trail.varCount :=
    h.wellFormed.known l (List.mem_of_mem_drop hpull.unwatched)
  obtain ⟨index, hindex⟩ := WatchIndex.succeeds_modify (ht.covers.lt hlt)
    fun line => { line with watchers := line.watchers.push (⟨x.handle, some first⟩ : Watcher) }
  refine ⟨_, bind_eq_ok.2 ⟨index, hindex, rfl⟩, ?_, fun _ hy => by cases hy⟩
  exact ht.moved h.stored (h.turned.same.trans hpull.same) (y := ⟨x.handle, some first⟩) rfl hindex

/-- The first literal becomes true, if it is not false. -/
theorem handled_of_unset (hno : first ∉ n.trail) (hneg : first.neg ∉ n.trail) :
    ∃ n', Handled x (do
      return (.stay ⟨x.handle, some first⟩, { n with
        store := n.store.put x.handle c₁
        trail := ← n.trail.assign first (some x.handle) })) (.stay ⟨x.handle, some first⟩) n' := by
  have hunset : n.trail.truth first = .unset :=
    (h.scan.sane.trail.truth_unset first).2 ⟨hno, hneg⟩
  obtain ⟨t, hassign⟩ := Trail.succeeds_assign (h.wellFormed.known first h.mem_first) hunset
    (some x.handle)
  exact ⟨_, bind_eq_ok.2 ⟨t, hassign, rfl⟩,
    (h.tended ht).of_trail (Trail.assigned_of_assign hassign).varCount,
    fun _ hy => Option.some.inj hy ▸ rfl⟩

/-- A clause whose first literal is not known to be true is settled in one of the ways above. -/
theorem handled {satisfied : Bool} (hsat : satisfied = false → first ∉ n.trail) :
    ∃ v n', Handled x (n.settleClause x c₁ first satisfied) v n' := by
  have hv := h.scan.sane.trail
  rw [settleClause]
  cases satisfied with
  | true =>
      exact ⟨.stay ⟨x.handle, some first⟩, _, rfl, h.tended ht, fun _ hy => Option.some.inj hy ▸ rfl⟩
  | false =>
      obtain ⟨o, ho⟩ : Succeeds (c₁.pull 1 fun q => do return !(← n.trail.isFalse q)) :=
        Constraint.succeeds_pull
          (fun m hm => succeeds_bind (Trail.succeeds_isFalse (h.wellFormed.known m hm)) fun _ _ =>
            succeeds_pure _) (Nat.lt_of_lt_of_le (by decide) h.wellFormed.two_le)
      simp only [Bool.false_eq_true, if_false, ho]
      -- there is another literal to be watched, or the first one is decisive
      cases o with
      | some q =>
          obtain ⟨l, c₂⟩ := q
          obtain ⟨n', hn'⟩ := h.handled_of_pulled ht (Constraint.pull_eq_some ho).1
          exact ⟨.leave, n', hn'⟩
      | none =>
          obtain ⟨b, hb⟩ := Trail.succeeds_isFalse (t := n.trail)
            (h.wellFormed.known first h.mem_first)
          show ∃ v n', Handled x (n.trail.isFalse first >>= _) v n'
          rw [hb]
          cases b with
          | true =>
              exact ⟨.fail ⟨x.handle, some first⟩, _, rfl, h.tended ht,
                fun _ hy => Option.some.inj hy ▸ rfl⟩
          | false =>
              obtain ⟨n', hn'⟩ := h.handled_of_unset ht (hsat rfl) fun hm => by
                cases (hv.isFalse_ok hb).2 hm
              exact ⟨_, n', hn'⟩

end Settles

/-- A visit to a clause is not refused. -/
theorem handled_of_visitClause (hs : Scan dead slack R p (kept ++ x :: rest) (x :: rest) n)
    (ht : n.Tended) (hc : n.store.get? x.handle = some c) (ha : c.isAtMost = false)
    (hblocker : ∀ b, x.blocker = some b → b ∉ n.trail) :
    ∃ v n', Handled x (n.visitClause p x c) v n' := by
  have hcf := hs.sane.formed _ c hc
  have htwo := hcf.two_le
  obtain ⟨l₀, hl₀⟩ := Constraint.succeeds_head hcf
  obtain ⟨c₁, hc₁⟩ : Succeeds (if l₀ = p.neg then c.swap 0 1 else pure c) := by
    split
    · exact Constraint.succeeds_swap (by omega) (by omega)
    · exact succeeds_pure c
  have hp : p.neg ∈ c.watchedLits := (Constraint.mem_keys_clause ha).1 (hs.mem_keys (by simp) hc)
  have hsame := (turned_of_swap ha hp (fetch_eq_ok.1 hl₀) rfl hc₁).same
  obtain ⟨first, hfirst⟩ := Constraint.succeeds_head (hsame.wellFormed hcf)
  have h := settles_of_turned hs hc ha (fetch_eq_ok.1 hl₀) hc₁ (fetch_eq_ok.1 hfirst)
  obtain ⟨satisfied, hsat⟩ : Succeeds
      (if some first ≠ x.blocker then n.trail.isTrue first else pure false) := by
    split
    · exact Trail.succeeds_isTrue (h.wellFormed.known first h.mem_first)
    · exact succeeds_pure false
  rw [visitClause_eq hl₀ hc₁ hfirst hsat]
  refine h.handled ht ?_
  -- the blocker was tested before, so the first literal is tested only if it differs from it
  rintro rfl
  split at hsat
  next => exact fun hm => by cases (hs.sane.trail.isTrue_ok hsat).2 hm
  next hblock => exact hblocker first (not_not.1 hblock).symm

/-- A visit to a watcher of a stored constraint is not refused. -/
theorem handled_of_visit (hs : Scan dead slack R p (kept ++ x :: rest) (x :: rest) n)
    (ht : n.Tended) (hx : ∃ c, n.store.get? x.handle = some c) :
    ∃ v n', Handled x (n.visit p x) v n' := by
  obtain ⟨c, hc⟩ := hx
  have hv := hs.sane.trail
  have hbc : ∀ b, x.blocker = some b →
      c.isAtMost = false ∧ (b ∈ c.lits.toList ∨ dead b) := fun b hb =>
    hs.sane.lines.blocker p x (by rw [Function.update_self]; simp) c hc b hb
  have hlook : (∀ b, x.blocker = some b → b ∉ n.trail) →
      ∃ v n', Handled x (n.visitStored p x) v n' := by
    intro hno
    simp only [visitStored, hc]
    split
    next ha => exact handled_of_visitAtMost hs ht hc ha
    next ha => exact handled_of_visitClause hs ht hc (by simpa using ha) hno
  rw [visit]
  cases hb : x.blocker with
  | none => exact hlook (by simp [hb])
  | some b =>
      -- a blocker is a literal of the constraint, or dead and on the trail: it is known in both
      -- cases
      have hknown : b.var.index < n.trail.varCount := by
        rcases (hbc b hb).2 with hmem | hdead
        · exact (hs.sane.formed _ c hc).known b hmem
        · exact hv.lt_varCount (l := b.neg) (hs.sane.dead_false b hdead)
      obtain ⟨r, hr⟩ := Trail.succeeds_isTrue (t := n.trail) hknown
      show ∃ v n', Handled x (n.trail.isTrue b >>= _) v n'
      rw [hr]
      cases r with
      | true => exact ⟨.stay x, n, rfl, ht, fun _ hy => Option.some.inj hy ▸ rfl⟩
      | false =>
          refine hlook fun b' hb' hm => ?_
          obtain rfl := Option.some.inj (hb.symm.trans hb')
          cases (hv.isTrue_ok hr).2 hm

/-! ## One line

The watchers that stay are those of stored constraints, as before. -/

/-- Going through a line returns, with a tended network and with watchers of stored constraints. -/
theorem returns_of_visitAll : ∀ {rest : List Watcher} {kept : Array Watcher} {n : Network},
    Scan dead slack R p (kept.toList ++ rest) rest n → n.Tended →
    (∀ x ∈ kept.toList ++ rest, ∃ c, n.store.get? x.handle = some c) →
    ∃ ws failed n', visitAll p rest kept n = .ok (ws, failed, n') ∧ n'.Tended ∧
      ∀ x ∈ ws.toList, ∃ c, n'.store.get? x.handle = some c := by
  intro rest
  induction rest with
  | nil =>
      intro kept n _ ht hlive
      exact ⟨kept, none, n, rfl, ht, fun x hx => hlive x (by simpa using hx)⟩
  | cons x rest ih =>
      intro kept n hs ht hlive
      obtain ⟨v, n₁, hvisit, ht₁, hhandle⟩ := handled_of_visit hs ht (hlive x (by simp))
      obtain ⟨hv, hm⟩ := visited_of_visit hs hvisit
      have hlive₁ : ∀ y ∈ kept.toList ++ x :: rest, ∃ c, n₁.store.get? y.handle = some c :=
        fun y hy => by
          obtain ⟨c, hc⟩ := hlive y hy
          obtain ⟨c', hc', -⟩ := hm.store.forth _ c hc
          exact ⟨c', hc'⟩
      -- the watcher that stays is one of the same constraint
      have hstays : ∀ y, v.watcher? = some y → ∀ z ∈ kept.toList ++ y :: rest,
          ∃ c, n₁.store.get? z.handle = some c := fun y hy z hz => by
        rcases List.mem_append.1 hz with hz | hz
        · exact hlive₁ z (List.mem_append_left _ hz)
        · rcases List.mem_cons.1 hz with rfl | hz
          · rw [hhandle _ hy]
            exact hlive₁ x (by simp)
          · exact hlive₁ z (List.mem_append_right _ (List.mem_cons_of_mem _ hz))
      rw [visitAll, hvisit]
      cases v with
      | stay y =>
          exact @ih (kept.push y) _ (by simpa [Visited] using hv) ht₁
            (by simpa using hstays y rfl)
      | leave =>
          refine ih hv ht₁ fun y hy => hlive₁ y ?_
          rcases List.mem_append.1 hy with hy | hy
          · exact List.mem_append_left _ hy
          · exact List.mem_append_right _ (List.mem_cons_of_mem _ hy)
      | fail y => exact ⟨_, _, n₁, rfl, ht₁, by simpa using hstays y rfl⟩

/-! ## One literal

Taking a line out of the index cleans it, which drops the watchers of constraints that are not
stored. So all watchers that are visited are of stored ones. -/

/-- Propagating one literal returns. -/
theorem returns_of_propagateLit (hs : n.Sane dead n.index.line) (hr : n.Sound R) (ht : n.Tended)
    (hp : p ∈ n.trail.done) (hlevel : n.trail.levelOf p.var = n.trail.level) :
    ∃ failed n', n.propagateLit p = .ok (failed, n') ∧ n'.Tended := by
  have hlt : p.index < n.index.items.size :=
    ht.covers.lt (hs.trail.lt_varCount (List.mem_of_mem_take hp))
  obtain ⟨⟨ws, index⟩, htake⟩ : Succeeds (n.index.take n.store p) := by
    refine succeeds_bind (succeeds_fetch hlt) fun line _ => succeeds_bind ?_ fun _ _ =>
      succeeds_pure _
    rw [DenseTable.set, if_pos hlt]
    exact succeeds_ok _
  obtain ⟨ht₀, -, hlive⟩ := ht.take htake
  have hline := (WatchIndex.take_eq_ok htake).1
  -- the line is taken out as a whole, and its watchers are visited one after the other
  have hscan : Scan dead (fun _ => True) R p (#[].toList ++ ws.toList) ws.toList
      { n with index } :=
    ⟨hs.take htake, by simp only [hline, Function.update_self], hp, hlevel,
      ⟨hr.stored, hr.ground⟩, (watching_all _).mono fun _ _ _ _ _ _ h => Or.inl (Or.inl h)⟩
  obtain ⟨kept, failed, n₁, hall, ht₁, hkept⟩ :=
    returns_of_visitAll hscan ht₀ (by simpa using hlive)
  have hsize : p.index < n₁.index.items.size := by
    refine ht₁.covers.lt ?_
    have := (scanned_of_visitAll hscan hall).1.trail.varCount
    exact this ▸ hs.trail.lt_varCount (List.mem_of_mem_take hp)
  obtain ⟨index', hrestore⟩ := WatchIndex.succeeds_modify hsize
    fun line => { line with watchers := kept }
  refine ⟨failed, _, ?_, ht₁.restore hrestore hkept⟩
  simp only [propagateLit, bind_eq_ok]
  exact ⟨_, htake, _, hall, index', hrestore, rfl⟩

/-! ## The queue

The literals not taken off the queue are at most as many as there are variables left to fill the
trail, so the fuel lasts. -/

/-- Emptying the queue returns if the fuel exceeds the literals that can still come. -/
theorem returns_of_propagateWithin : ∀ {fuel : Nat} {n : Network}, n.Sane dead n.index.line →
    n.Sound R → n.Tended → n.trail.varCount < n.trail.head + fuel →
    ∃ failed n', n.propagateWithin fuel = .ok (failed, n') ∧ n'.Tended := by
  intro fuel
  induction fuel with
  | zero =>
      intro n hs _ _ hfuel
      -- the rounds are more than the literals that can wait
      have := hs.trail.size_le
      have := hs.trail.head_le
      omega
  | succ fuel ih =>
      intro n hs hr ht hfuel
      rw [propagateWithin]
      split
      next => exact ⟨none, n, rfl, ht⟩
      next p t hsome =>
          obtain ⟨hp, rfl⟩ := Trail.dequeue_eq_some hsome
          have hlt : n.trail.head < n.trail.lits.size := by
            simpa using (List.getElem?_eq_some_iff.1 hp).1
          have hs₀ : Sane { n with
              trail := { n.trail with head := n.trail.head + 1 }
              propagations := n.propagations + 1 } dead n.index.line :=
            { hs.withHead (Nat.le_succ n.trail.head) hlt with }
          have hdone : p ∈ { n.trail with head := n.trail.head + 1 }.done := by
            simp only [Trail.done, List.take_add_one, hp, Option.toList_some]
            simp
          have hlevel := levelOf_of_waiting (t := n.trail) hs.trail hs.queued hp (Nat.le_refl _)
          obtain ⟨failed, n₁, hlit, ht₁⟩ := returns_of_propagateLit hs₀ (R := R)
            ⟨hr.stored, hr.ground⟩ ⟨ht.covers, ht.clean⟩ hdone hlevel
          obtain ⟨hpr, hhead⟩ : Propagated dead (fun _ => True) R _ failed n₁ ∧ _ :=
            propagated_of_propagateLit hs₀ ⟨hr.stored, hr.ground⟩ hdone hlevel
              ((watching_all _).mono fun _ _ _ _ _ _ h => Or.inl (Or.inl h)) hlit
          simp only [bind_eq_ok]
          cases failed with
          | some a => exact ⟨_, _, ⟨_, hlit, rfl⟩, ht₁.covers, ht₁.clean⟩
          | none =>
              have hcount : n₁.trail.varCount = n.trail.varCount := hpr.advances.trail.varCount
              have hhead₁ : n₁.trail.head = n.trail.head + 1 := hhead
              obtain ⟨failed, n', h', ht'⟩ := ih hpr.sane hpr.sound ht₁ (by omega)
              exact ⟨failed, n', ⟨_, hlit, h'⟩, ht'⟩

/-- A propagation returns. -/
theorem returns_of_propagate (hs : n.Sane dead n.index.line) (hr : n.Sound R) (ht : n.Tended) :
    ∃ failed n', n.propagate = .ok (failed, n') ∧ n'.Tended :=
  returns_of_propagateWithin hs hr ht (by omega)

end Network

end CardSat
