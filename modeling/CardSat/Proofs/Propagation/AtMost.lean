import CardSat.Proofs.Network

set_option autoImplicit false

/-! # Visiting an at-most constraint

What an at-most constraint does when its watched literal `p` became true is right
(`atMostChange_right`): it keeps its watch when every other watched literal is false, moves it to a
literal that is not true, forces its literals when exactly its bound is reached, and fails when it
is exceeded. `forceFalse` then makes every other watched literal false (`forced_of_forceFalse`), and
the constraint explains each literal so forced.

A constraint with bound `k` and `n` literals watches `n - k + 1` of them. If all watched literals
but one are false, the bound cannot be exceeded; if a watched literal is true and no literal outside
the watched ones can take its place, then all of those outside are true, which makes `k - 1`, and
`p` is the last one that fits.

The scan counts true and false watched literals on the way, and may stop before the end. So the
lemmas here are about the counts of a prefix, and `Scanned` says what is known when `p` has been
passed.
-/

namespace CardSat

/-- When a change is the right one for a constraint whose watched literal `p` is true. -/
def AtMostChange.Right (c : Constraint) (t : Trail) (p : Lit) : AtMostChange → Prop
  | keep => ∀ l ∈ c.watchedLits, l ≠ p → l.neg ∈ t
  | move l c' => ∃ i, c.watchedLits[i]? = some p ∧ c.Pulled i l c' ∧ l ∉ t
  | force => (∀ l ∈ c.watchedLits, l ∈ t → l = p) ∧ ∀ l ∈ c.lits.toList.drop c.watchers, l ∈ t
  | fail => c.Falsified t

namespace Constraint

variable {c : Constraint} {t : Trail} {p : Lit} {n k : Nat}

/-- As many literals are watched as `watchers` says. -/
theorem length_watchedLits (hc : c.WellFormed n) : c.watchedLits.length = c.watchers := by
  rw [watchedLits, List.length_take, Array.length_toList]
  exact Nat.min_eq_left hc.watchers_le

/-- If as many watched literals are false as there are others than `p`, then all the others are. -/
theorem keep_right (hv : t.Valid) (hc : c.WellFormed n) (hp : p ∈ c.watchedLits) (hpt : p ∈ t)
    (h : c.watchers - 1 ≤ c.watchedLits.countP fun l => t.truth l = .no) :
    AtMostChange.keep.Right c t p := by
  intro l hl hne
  by_contra hnt
  rw [← hv.truth_no] at hnt
  have hp' : t.truth p ≠ .no := by rw [(hv.truth_yes p).2 hpt]; decide
  have h2 : 2 ≤ c.watchedLits.countP fun l => !decide (t.truth l = .no) :=
    two_le_countP hl hp hne (by simpa using hnt) (by simpa using hp')
  have hlen := List.length_eq_countP_add_countP
    (fun l => decide (t.truth l = .no)) (l := c.watchedLits)
  rw [length_watchedLits hc] at hlen
  have h2' : 2 ≤ List.countP (fun a => decide ¬(decide (t.truth a = .no) = true)) c.watchedLits := by
    simpa using h2
  omega

/-- If more literals are true than the bound admits, the constraint is violated. -/
theorem fail_right (hk : c.kind = .atMost k)
    (h : k < c.lits.toList.countP fun l => t.truth l = .yes) : AtMostChange.fail.Right c t p := by
  refine ⟨fun ha => absurd hk (kind_ne_atMost ha k), fun k' hk' => ?_⟩
  obtain rfl : k = k' := Kind.atMost.inj (hk.symm.trans hk')
  exact h

/-- Counting among watched and unwatched literals. -/
theorem countP_watchedLits_add (f : Lit → Bool) :
    c.watchedLits.countP f + (c.lits.toList.drop c.watchers).countP f =
      c.lits.toList.countP f := by
  rw [watchedLits, ← List.countP_append, List.take_append_drop]

/-- When all unwatched literals are true, the bound is reached, and it is exceeded if another
watched literal is true besides `p`. -/
theorem end_right (hv : t.Valid) (hc : c.WellFormed n) (hk : c.kind = .atMost k)
    (hp : p ∈ c.watchedLits) (hpt : p ∈ t) (hun : ∀ l ∈ c.lits.toList.drop c.watchers, l ∈ t) :
    (if (c.watchedLits.countP fun l => t.truth l = .yes) > 1 then AtMostChange.fail
      else .force).Right c t p := by
  have hyes : ∀ l, l ∈ t → decide (t.truth l = .yes) = true := fun l hl =>
    decide_eq_true ((hv.truth_yes l).2 hl)
  split
  next htrues =>
      have hwk := hc.watchers_atMost hk
      have hw := hc.watchers_le
      have hadd := countP_watchedLits_add (c := c) fun l => t.truth l = .yes
      rw [List.countP_eq_length.2 fun l hl => hyes l (hun l hl), List.length_drop,
        Array.length_toList] at hadd
      have hsize : c.lits.size = c.size := rfl
      exact fail_right hk (by omega)
  next htrues =>
      refine ⟨fun l hl hlt => ?_, hun⟩
      by_contra hne
      have htwo := two_le_countP (p := fun l => t.truth l = .yes) hl hp hne (hyes l hlt)
        (hyes p hpt)
      omega

/-- An unwatched literal that is not true can take the place of `p`. -/
theorem move_right {i : Nat} {l : Lit} {c' : Constraint} (hv : t.Valid)
    (hi : c.watchedLits[i]? = some p)
    (h : (c.pull i fun q => do return !(← t.isTrue q)) = .ok (some (l, c'))) :
    (AtMostChange.move l c').Right c t p := by
  obtain ⟨hpull, htest⟩ := pull_eq_some h
  simp only [bind_eq_ok, pure_eq_ok] at htest
  obtain ⟨b, hb, hb'⟩ := htest
  refine ⟨i, hi, hpull, fun hl => ?_⟩
  rw [(hv.isTrue_ok hb).2 hl] at hb'
  cases hb'

/-- If no literal can take the place of `p`, all unwatched literals are true. -/
theorem mem_of_pull_eq_none {i : Nat} (hv : t.Valid)
    (h : (c.pull i fun q => do return !(← t.isTrue q)) = .ok none) :
    ∀ l ∈ c.lits.toList.drop c.watchers, l ∈ t := fun l hl => by
  have htest := pull_eq_none h l hl
  simp only [bind_eq_ok, pure_eq_ok] at htest
  obtain ⟨b, hb, hb'⟩ := htest
  exact (hv.isTrue_ok hb).1 (by simpa using hb')

/-- A scan has gone through the watched literals `pre`. If it has come by `p`, it has found no
unwatched literal that is not true. -/
structure Scanned (c : Constraint) (t : Trail) (p : Lit) (pre rest : List Lit) : Prop where
  split : pre ++ rest = c.watchedLits
  unwatched : p ∈ pre → ∀ l ∈ c.lits.toList.drop c.watchers, l ∈ t

/-- A watched literal is passed; if it is `p`, no unwatched literal was found that is not true. -/
theorem Scanned.pass {pre rest : List Lit} {a : Lit} (h : Scanned c t p pre (a :: rest))
    (ha : a = p → ∀ l ∈ c.lits.toList.drop c.watchers, l ∈ t) :
    Scanned c t p (pre ++ [a]) rest := by
  refine ⟨by simpa using h.split, fun hp => ?_⟩
  rcases List.mem_append.1 hp with hp | hp
  · exact h.unwatched hp
  · exact ha (List.mem_singleton.1 hp).symm

/-- A scan that has gone through `pre`, with the numbers of its false and true literals, ends with
the right change. -/
theorem atMostScan_right (hv : t.Valid) (hc : c.WellFormed n) (hk : c.kind = .atMost k)
    (hp : p ∈ c.watchedLits) (hpt : p ∈ t) :
    ∀ (lits pre : List Lit) (r : AtMostChange), Scanned c t p pre lits →
      c.atMostScan t p lits pre.length (pre.countP fun l => t.truth l = .no)
        (pre.countP fun l => t.truth l = .yes) = .ok r → r.Right c t p := by
  intro lits
  induction lits with
  | nil =>
      intro pre r hs h
      obtain rfl : pre = c.watchedLits := (List.append_nil pre).symm.trans hs.split
      obtain rfl := pure_eq_ok.1 h
      exact end_right hv hc hk hp hpt (hs.unwatched hp)
  | cons a rest ih =>
      intro pre r hs h
      simp only [atMostScan, bind_eq_ok, Trail.value_eq_ok] at h
      obtain ⟨x, ⟨-, hx⟩, h⟩ := h
      have hcount : ∀ v : Truth, (pre ++ [a]).countP (fun l => t.truth l = v) =
          pre.countP (fun l => t.truth l = v) + if x = v then 1 else 0 := fun v => by
        rw [List.countP_append, List.countP_singleton, hx]
        simp
      have hle : ∀ v : Truth, (pre ++ [a]).countP (fun l => t.truth l = v) ≤
          c.watchedLits.countP fun l => t.truth l = v := fun v => by
        rw [← hs.split, List.append_cons pre a rest]
        exact (List.sublist_append_left _ _).countP_le
      have hpx : x ≠ .yes → a ≠ p := fun hne he => hne (hx ▸ (hv.truth_yes a).2 (he ▸ hpt))
      cases x with
      | unset =>
          exact ih (pre ++ [a]) r (hs.pass fun he => absurd he (hpx (by decide)))
            (by simpa [hcount] using h)
      | no =>
          have hno := hle .no
          rw [hcount, if_pos rfl] at hno
          dsimp only at h
          split at h
          next hfew =>
              obtain rfl := pure_eq_ok.1 h
              exact keep_right hv hc hp hpt (Nat.le_trans hfew hno)
          next =>
              exact ih (pre ++ [a]) r (hs.pass fun he => absurd he (hpx (by decide)))
                (by simpa [hcount] using h)
      | yes =>
          have hyes := hle .yes
          rw [hcount, if_pos rfl] at hyes
          -- the literals after this one are scanned if it is not `p`, or nothing can take over
          have hnext : (a = p → ∀ l ∈ c.lits.toList.drop c.watchers, l ∈ t) →
              c.atMostScan t p rest (pre.length + 1) (pre.countP fun l => t.truth l = .no)
                ((pre.countP fun l => t.truth l = .yes) + 1) = .ok r → r.Right c t p :=
            fun ha h' => ih (pre ++ [a]) r (hs.pass ha) (by simpa [hcount] using h')
          dsimp only at h
          split at h
          next hmany =>
              obtain rfl := pure_eq_ok.1 h
              have hwk := hc.watchers_atMost hk
              have hw := hc.watchers_le
              have hadd := countP_watchedLits_add (c := c) fun l => t.truth l = .yes
              exact fail_right hk (by omega)
          next =>
              split at h
              next hap =>
                  obtain ⟨o, ho, h⟩ := bind_eq_ok.1 h
                  cases o with
                  | none => exact hnext (fun _ => mem_of_pull_eq_none hv ho) h
                  | some q =>
                      obtain rfl := pure_eq_ok.1 h
                      refine move_right hv ?_ ho
                      rw [← hs.split, hap]
                      simp
              next hap => exact hnext (fun he => absurd he hap) h

/-- The change that an at-most constraint makes is right. -/
theorem atMostChange_right {r : AtMostChange} (hv : t.Valid) (hc : c.WellFormed n)
    (hk : c.kind = .atMost k) (hp : p ∈ c.watchedLits) (hpt : p ∈ t)
    (h : c.atMostChange t p = .ok r) : r.Right c t p := by
  simp only [atMostChange, bind_eq_ok] at h
  obtain ⟨ls, hls, h⟩ := h
  obtain rfl := watched_eq_ok hls
  exact atMostScan_right hv hc hk hp hpt c.watchedLits [] r ⟨rfl, by simp⟩ (by simpa using h)

end Constraint

namespace Trail

/-- A trail on which further literals were forced by `a`. -/
structure Forced (t : Trail) (a : Handle) (t' : Trail) : Prop where
  valid : t'.Valid
  longer : t.Extends t'
  queued : t'.Queued
  head : t'.head = t.head
  new : ∀ i m, t'.lits.toList[i]? = some m → t.lits.size ≤ i →
    t'.reasonOf m.var = some a ∧ t'.levelOf m.var = t.level

/-- Nothing forced. -/
theorem Forced.refl {t : Trail} (hv : t.Valid) (hq : t.Queued) (a : Handle) : t.Forced a t := by
  refine ⟨hv, .refl t, hq, rfl, fun i m hi hle => ?_⟩
  have := (List.getElem?_eq_some_iff.1 hi).1
  rw [Array.length_toList] at this
  omega

/-- One more literal forced. -/
theorem Forced.assigned {t t₁ t' : Trail} {a : Handle} {l : Lit} (h : t.Forced a t₁)
    (ha : Assigned t₁ l (some a) t') : t.Forced a t' where
  valid := ha.valid h.valid
  longer := h.longer.trans (ha.extends h.valid)
  queued := ha.queued h.queued
  head := ha.head.trans h.head
  new i m hi hle := by
    rw [ha.lits, List.getElem?_append] at hi
    split at hi
    next hlt =>
        have hm := List.mem_of_getElem? hi
        rw [ha.reasonOf_of_mem h.valid hm, ha.levelOf_of_mem h.valid hm]
        exact h.new i m hi hle
    next hge =>
        have hm : m = l := List.mem_singleton.1 (List.mem_of_getElem? hi)
        rw [hm, ha.reasonOf_self, ha.levelOf_self]
        exact ⟨rfl, h.longer.level_eq⟩

/-- Forcing makes every literal of the list false but `p`, and adds only complements of them. -/
theorem forced_of_forceFalse {t t' : Trail} {p : Lit} {a : Handle} {ls : List Lit}
    (hv : t.Valid) (hq : t.Queued) (h : t.forceFalse p a ls = .ok t') :
    t.Forced a t' ∧ (∀ l ∈ ls, l ≠ p → l.neg ∈ t') ∧ ∀ m ∈ t', m ∈ t ∨ m.neg ∈ ls ∧ m.neg ≠ p := by
  let P : List Lit → Trail → Prop := fun rest t₁ =>
    t.Forced a t₁ ∧ (∀ l ∈ ls, l ≠ p → l ∈ rest ∨ l.neg ∈ t₁) ∧
      (∀ l ∈ rest, l ∈ ls) ∧ ∀ m ∈ t₁, m ∈ t ∨ m.neg ∈ ls ∧ m.neg ≠ p
  have hstep : ∀ l rest t₁ t₂, P (l :: rest) t₁ →
      (do
        if l = p then return t₁
        else if ← t₁.isFalse l then return t₁
        else t₁.assign l.neg (some a) : Checked Trail) = .ok t₂ → P rest t₂ := by
    rintro l rest t₁ t₂ ⟨hf, hneg, hsub, hnew⟩ hstep
    have hsub' : ∀ m ∈ rest, m ∈ ls := fun m hm => hsub m (List.mem_cons_of_mem _ hm)
    -- the literals of the list stay accounted for once `l` is, whatever was assigned
    have hpass : ∀ t₃ : Trail, (∀ m ∈ t₁, m ∈ t₃) → (l ≠ p → l.neg ∈ t₃) →
        ∀ m ∈ ls, m ≠ p → m ∈ rest ∨ m.neg ∈ t₃ := by
      intro t₃ hkeep hl m hm hne
      rcases hneg m hm hne with hmem | hmem
      · rcases List.mem_cons.1 hmem with rfl | hmem
        · exact Or.inr (hl hne)
        · exact Or.inl hmem
      · exact Or.inr (hkeep _ hmem)
    split at hstep
    next hlp =>
        obtain rfl := pure_eq_ok.1 hstep
        exact ⟨hf, hpass t₁ (fun _ => id) fun hne => absurd hlp hne, hsub', hnew⟩
    next hlp =>
        simp only [bind_eq_ok] at hstep
        obtain ⟨b, hb, hstep⟩ := hstep
        split at hstep
        next hbt =>
            obtain rfl := pure_eq_ok.1 hstep
            have hfalse : l.neg ∈ t₁ := (hf.valid.isFalse_ok hb).1 hbt
            exact ⟨hf, hpass t₁ (fun _ => id) fun _ => hfalse, hsub', hnew⟩
        next =>
            have ha := assigned_of_assign hstep
            refine ⟨hf.assigned ha, hpass t₂ (fun m hm => ha.mem_iff.2 (Or.inl hm)) fun _ =>
              ha.mem_iff.2 (Or.inr rfl), hsub', fun m hm => ?_⟩
            rcases ha.mem_iff.1 hm with hm | rfl
            · exact hnew m hm
            · rw [Lit.neg_neg]
              exact Or.inr ⟨hsub l (by simp), hlp⟩
  have hend : P [] t' := foldlM_ok P hstep
    ⟨.refl hv hq a, fun l hl _ => Or.inl hl, fun l hl => hl, fun m hm => Or.inl hm⟩ h
  obtain ⟨hf, hneg, -, hnew⟩ := hend
  refine ⟨hf, fun l hl hne => ?_, hnew⟩
  rcases hneg l hl hne with hmem | hmem
  · cases hmem
  · exact hmem

end Trail

end CardSat
