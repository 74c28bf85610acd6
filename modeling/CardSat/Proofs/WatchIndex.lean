import CardSat.WatchIndex
import CardSat.Proofs.Store
import Mathlib.Logic.Function.Basic

set_option autoImplicit false

/-! # The watch index is exact

`WatchIndex.line` reads the watchers of a literal. A family of lines is `Exact` for a store when
every stored constraint has exactly one watcher on the line of each of its keys and none elsewhere.
Watchers of freed constraints may remain; since a handle is never given out twice, they name nothing
for good.

During propagation the watchers of one line are held apart from the index. Exactness is therefore
stated of a family of lines; `Function.update` puts the line held apart back in its place.

Exactness counts: that there is one watcher under a key and not two is needed when a watch moves, as
the one that moves must be the only one. It is stated with `countP` over handles, so a change of a
line is followed by counting what it adds and takes away.
-/

namespace CardSat

/-- Literals are told apart by their index in the table. -/
theorem Lit.index_inj {a b : Lit} : a.index = b.index ↔ a = b :=
  ⟨fun h => by rw [← Lit.ofIndex_index a, h, Lit.ofIndex_index], fun h => h ▸ rfl⟩

namespace WatchIndex

/-- The watchers of a literal. -/
def line (w : WatchIndex) (l : Lit) : List Watcher := (w.items.getD l.index {}).watchers.toList

variable {w w' : WatchIndex} {l : Lit}

/-- Changing a line changes no other. -/
theorem line_modify {f : WatchLine → WatchLine} (h : w.modify l.index f = .ok w') :
    (∀ m, m ≠ l → w'.line m = w.line m) ∧
      ∃ x, w.items[l.index]? = some x ∧ w'.line l = (f x).watchers.toList := by
  simp only [DenseTable.modify] at h
  split at h
  next hlt =>
      obtain rfl := Except.ok.inj h
      constructor
      · intro m hm
        have : l.index ≠ m.index := fun he => hm (Lit.index_inj.1 he).symm
        simp [line, Array.getD_eq_getD_getElem?, Array.getElem?_modify, this]
      · exact ⟨w.items[l.index], by simp [hlt], by
          simp [line, Array.getD_eq_getD_getElem?, hlt, Array.getElem_modify]⟩
  next => cases h

/-- A line that exists, read from the table. -/
theorem line_eq_of_getElem? {x : WatchLine} (h : w.items[l.index]? = some x) :
    w.line l = x.watchers.toList := by
  simp [line, Array.getD_eq_getD_getElem?, h]

/-- Adding a watcher to a line. -/
theorem line_push {x : Watcher} (h : w.push l x = .ok w') :
    w'.line = Function.update w.line l (w.line l ++ [x]) := by
  obtain ⟨hne, y, hy, hl⟩ := line_modify h
  funext m
  by_cases hm : m = l
  · subst hm
    rw [Function.update_self, hl, line_eq_of_getElem? hy]
    simp
  · rw [Function.update_of_ne hm, hne m hm]

/-- Putting a line back replaces what is there. -/
theorem line_restore {ws : Array Watcher} (h : w.restore l ws = .ok w') :
    w'.line = Function.update w.line l ws.toList := by
  obtain ⟨hne, y, hy, hl⟩ := line_modify h
  funext m
  by_cases hm : m = l
  · subst hm
    rw [Function.update_self, hl]
  · rw [Function.update_of_ne hm, hne m hm]

/-- Taking a line out leaves it empty; what is missing from the answer watched nothing. -/
theorem take_eq_ok {store : Store} {ws : Array Watcher} (h : w.take store l = .ok (ws, w')) :
    w'.line = Function.update w.line l [] ∧ ws.toList.Sublist (w.line l) ∧
      ∀ x ∈ w.line l, x ∈ ws.toList ∨ store.get? x.handle = none := by
  simp only [take, bind_eq_ok, pure_eq_ok, Prod.mk.injEq, DenseTable.fetch, fetch_eq_ok] at h
  obtain ⟨x, hx, w₁, hset, hws, rfl⟩ := h
  have hline := line_eq_of_getElem? hx
  refine ⟨?_, ?_, ?_⟩
  · simp only [DenseTable.set] at hset
    split at hset
    next hlt =>
        obtain rfl := Except.ok.inj hset
        funext m
        by_cases hm : m = l
        · subst hm
          simp [line, Array.getD_eq_getD_getElem?, hlt]
        · have : l.index ≠ m.index := fun he => hm (Lit.index_inj.1 he).symm
          rw [Function.update_of_ne hm]
          simp [line, Array.getD_eq_getD_getElem?, this]
    next => cases hset
  · rw [hline, ← hws]
    split
    · simp
    · exact List.Sublist.refl _
  -- a line that is dirty loses the watchers of freed constraints, any other line loses none
  · intro y hy
    rw [hline] at hy
    rw [← hws]
    split
    · by_cases hd : store.get? y.handle = none
      · exact Or.inr hd
      · refine Or.inl ?_
        simp only [Array.toList_filter, List.mem_filter, Store.isDeleted]
        exact ⟨hy, by simpa [Option.isSome_iff_ne_none] using hd⟩
    · exact Or.inl hy

end WatchIndex

/-! ## Exactness

The changes that keep the lines exact are those that a visit makes: another blocker, a rewritten
constraint, a watcher that moves to another line. -/

/-- Every stored constraint has one watcher under each of its keys and none elsewhere. A
blocker belongs to its clause, unless it is one of the `dead` literals, which stay false. -/
structure Exact (line : Lit → List Watcher) (store : Store) (dead : Lit → Prop) : Prop where
  count : ∀ h c, store.get? h = some c → ∀ l,
    (line l).countP (fun x => x.handle = h) = if l ∈ c.keys then 1 else 0
  blocker : ∀ l, ∀ x ∈ line l, ∀ c, store.get? x.handle = some c → ∀ b, x.blocker = some b →
    c.isAtMost = false ∧ (b ∈ c.lits.toList ∨ dead b)
  issued : ∀ l, ∀ x ∈ line l, x.handle.index < store.slots.size

namespace Exact

variable {line line' : Lit → List Watcher} {store store' : Store} {dead : Lit → Prop}

theorem mem_keys (he : Exact line store dead) {l : Lit} {x : Watcher} {c : Constraint}
    (hx : x ∈ line l) (hc : store.get? x.handle = some c) : l ∈ c.keys := by
  by_contra hk
  have := he.count x.handle c hc l
  rw [if_neg hk, List.countP_eq_zero] at this
  exact this x hx (by simp)

/-- The lines may change as long as they keep the watchers of stored constraints. -/
theorem of_lines (he : Exact line store dead)
    (hcount : ∀ h c, store.get? h = some c → ∀ l,
      (line' l).countP (fun x => x.handle = h) = (line l).countP fun x => x.handle = h)
    (hsub : ∀ l, ∀ x ∈ line' l, x ∈ line l) : Exact line' store dead where
  count h c hc l := by rw [hcount h c hc l, he.count h c hc l]
  blocker l x hx := he.blocker l x (hsub l x hx)
  issued l x hx := he.issued l x (hsub l x hx)

/-- A watcher may get another blocker of its clause. -/
theorem set_blocker (he : Exact line store dead) {p : Lit} {pre post : List Watcher}
    {x y : Watcher} (hp : line p = pre ++ x :: post) (hxy : y.handle = x.handle)
    (hy : ∀ c, store.get? x.handle = some c → ∀ b, y.blocker = some b →
      c.isAtMost = false ∧ (b ∈ c.lits.toList ∨ dead b)) :
    Exact (Function.update line p (pre ++ y :: post)) store dead := by
  -- one watcher is replaced by another of the same constraint
  have hcase : ∀ l, ∀ z ∈ Function.update line p (pre ++ y :: post) l,
      z ∈ line l ∨ z = y := by
    intro l z hz
    by_cases hl : l = p
    · subst hl
      rw [Function.update_self] at hz
      rw [hp]
      simp only [List.mem_append, List.mem_cons] at hz ⊢
      rcases hz with hz | rfl | hz
      · exact Or.inl (Or.inl hz)
      · exact Or.inr rfl
      · exact Or.inl (Or.inr (Or.inr hz))
    · rw [Function.update_of_ne hl] at hz
      exact Or.inl hz
  have hx : x ∈ line p := by rw [hp]; simp
  refine ⟨fun h c hc l => ?_, fun l z hz c hc b hb => ?_, fun l z hz => ?_⟩
  · rw [← he.count h c hc l]
    by_cases hl : l = p
    · subst hl
      rw [Function.update_self, hp]
      simp [List.countP_append, List.countP_cons, hxy]
    · rw [Function.update_of_ne hl]
  · rcases hcase l z hz with hz | rfl
    · exact he.blocker l z hz c hc b hb
    · exact hy c (hxy ▸ hc) b hb
  · rcases hcase l z hz with hz | rfl
    · exact he.issued l z hz
    · rw [hxy]
      exact he.issued _ x hx

/-- A constraint may be rewritten if its keys stay and its blockers still belong to it. -/
theorem put (he : Exact line store dead) {h : Handle} {c c' : Constraint}
    (hc : store.get? h = some c) (hkeys : ∀ l, l ∈ c'.keys ↔ l ∈ c.keys)
    (hat : c'.isAtMost = c.isAtMost)
    (hmem : c.isAtMost = false → ∀ b ∈ c.lits.toList, b ∈ c'.lits.toList ∨ dead b) :
    Exact line (store.put h c') dead where
  count a d hd l := by
    rw [Store.get?_put hc] at hd
    split at hd
    next ha =>
        obtain rfl := Option.some.inj hd
        rw [ha, he.count h c hc l]
        simp only [hkeys]
    next => exact he.count a d hd l
  blocker l x hx d hd b hb := by
    rw [Store.get?_put hc] at hd
    split at hd
    next hxh =>
        obtain rfl := Option.some.inj hd
        obtain ⟨ha, hbc⟩ := he.blocker l x hx c (hxh ▸ hc) b hb
        refine ⟨hat.trans ha, ?_⟩
        rcases hbc with hbc | hbd
        · exact hmem ha b hbc
        · exact Or.inr hbd
    next => exact he.blocker l x hx d hd b hb
  issued l x hx := by
    rw [Store.size_put]
    exact he.issued l x hx

section

variable {p q : Lit} {pre post : List Watcher} {x y : Watcher}

/-- The watchers after a move are those from before, or the one that has moved. -/
theorem mem_moved {l : Lit} {z : Watcher} (hp : line p = pre ++ x :: post)
    (hz : z ∈ Function.update (Function.update line q (line q ++ [y])) p (pre ++ post) l) :
    z ∈ line l ∨ z = y := by
  by_cases hlp : l = p
  · subst hlp
    rw [Function.update_self] at hz
    rw [hp]
    refine Or.inl ?_
    simp only [List.mem_append, List.mem_cons] at hz ⊢
    exact hz.imp_right Or.inr
  · rw [Function.update_of_ne hlp] at hz
    by_cases hlq : l = q
    · subst hlq
      rw [Function.update_self] at hz
      simpa using hz
    · rw [Function.update_of_ne hlq] at hz
      exact Or.inl hz

/-- Only the constraint of the watcher that moves is watched elsewhere than before. -/
theorem countP_moved (hp : line p = pre ++ x :: post) (hqp : q ≠ p) (hxy : y.handle = x.handle)
    (h : Handle) (l : Lit) :
    (Function.update (Function.update line q (line q ++ [y])) p (pre ++ post) l).countP
        (fun z => z.handle = h) + (if l = p ∧ x.handle = h then 1 else 0) =
      (line l).countP (fun z => z.handle = h) + if l = q ∧ x.handle = h then 1 else 0 := by
  by_cases hlp : l = p
  · subst hlp
    have hlq : ¬ (l = q ∧ x.handle = h) := fun he => hqp he.1.symm
    rw [Function.update_self, hp, if_neg hlq]
    simp only [List.countP_append, List.countP_cons, true_and, decide_eq_true_eq]
    omega
  · rw [Function.update_of_ne hlp, if_neg (by simp [hlp])]
    by_cases hlq : l = q
    · subst hlq
      rw [Function.update_self]
      simp only [List.countP_append, List.countP_singleton, hxy, true_and, decide_eq_true_eq]
      omega
    · rw [Function.update_of_ne hlq, if_neg (by simp [hlq])]

/-- The watcher of a constraint moves from the line of `p` to the line of `q`, while the
constraint is rewritten to have `q` among its keys in place of `p`. -/
theorem move (he : Exact line store dead) {c c' : Constraint} (hp : line p = pre ++ x :: post)
    (hqp : q ≠ p) (hxy : y.handle = x.handle) (hc : store.get? x.handle = some c)
    (hkeys : ∀ l, l ∈ c'.keys ↔ l = q ∨ l ∈ c.keys ∧ l ≠ p) (hq : q ∉ c.keys)
    (hat : c'.isAtMost = c.isAtMost) (hmem : ∀ b ∈ c.lits.toList, b ∈ c'.lits.toList)
    (hy : ∀ b, y.blocker = some b → c'.isAtMost = false ∧ b ∈ c'.lits.toList) :
    Exact (Function.update (Function.update line q (line q ++ [y])) p (pre ++ post))
      (store.put x.handle c') dead := by
  have hx : x ∈ line p := by rw [hp]; simp
  have hpc : p ∈ c.keys := he.mem_keys hx hc
  refine ⟨fun a d hd l => ?_, fun l z hz d hd b hb => ?_, fun l z hz => ?_⟩
  -- the count of the moved watcher changes in the lines of `p` and `q` only
  · have hcount := countP_moved hp hqp hxy a l
    rw [Store.get?_put hc] at hd
    split at hd
    next ha =>
        obtain rfl := Option.some.inj hd
        subst ha
        have hbefore := he.count x.handle c hc l
        simp only [and_true] at hcount
        by_cases hlp : l = p
        · subst hlp
          rw [if_pos rfl, if_neg hqp.symm, hbefore, if_pos hpc] at hcount
          rw [if_neg (by simp [hkeys, hqp.symm])]
          omega
        · by_cases hlq : l = q
          · subst hlq
            rw [if_neg hlp, if_pos rfl, hbefore, if_neg hq] at hcount
            rw [if_pos (by simp [hkeys])]
            omega
          · rw [if_neg hlp, if_neg hlq, hbefore] at hcount
            simpa [hkeys, hlp, hlq] using hcount
    next ha =>
        rw [if_neg fun h => ha h.2.symm, if_neg fun h => ha h.2.symm] at hcount
        rw [← he.count a d hd l]
        exact hcount
  · rw [Store.get?_put hc] at hd
    rcases mem_moved hp hz with hz | rfl
    · split at hd
      next hzx =>
          obtain rfl := Option.some.inj hd
          obtain ⟨ha, hbc⟩ := he.blocker l z hz c (hzx ▸ hc) b hb
          exact ⟨hat.trans ha, hbc.imp_left (hmem b)⟩
      next => exact he.blocker l z hz d hd b hb
    · rw [if_pos hxy] at hd
      obtain rfl := Option.some.inj hd
      obtain ⟨ha, hbc⟩ := hy b hb
      exact ⟨ha, Or.inl hbc⟩
  · rw [Store.size_put]
    rcases mem_moved hp hz with hz | rfl
    · exact he.issued l z hz
    · rw [hxy]
      exact he.issued _ x hx

end

end Exact

end CardSat
