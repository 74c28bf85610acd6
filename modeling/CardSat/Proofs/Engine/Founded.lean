import CardSat.Proofs.Engine.Rollback

set_option autoImplicit false

/-! # Facts that were added and facts that were learnt

The facts of an engine are a single list. Marks, one for each fact, tell those that were added from
those that a search has learnt. With the given constraints, the added facts are the basis from which
everything else has to follow (`Engine.Basis`). The engine is `Founded` if it does, for the engine
as it is and for every snapshot that may be loaded.

The marks are not part of the engine. They are kept beside it, so that what a run derives can be
compared with what was given to it; a fact that was learnt could otherwise justify itself, since the
problem of an engine counts its facts among what is given.

Steps that only add keep this if what they learn follows from the problem (`Founded.grown`), and so
does going back to one of the snapshots (`Founded.cut`).
-/

namespace CardSat

namespace Engine

variable {e e' : Engine} {R : World → Prop} {s : Snapshot} {saved : List Snapshot}
  {marks marks' new : List Bool} {n k : Nat} {w : World}

/-- The worlds of the oldest `n` given constraints and of those among the oldest `k` facts that
were added. -/
structure Basis (e : Engine) (marks : List Bool) (n k : Nat) (w : World) : Prop where
  given : ∀ h ∈ e.database.given.toList.take n, ∀ c, e.store.get? h = some c → c.holds w = true
  facts : ∀ l, (l, true) ∈ (e.database.units.toList.take k).zip (marks.take k) → l.holds w = true

/-- Of the oldest `k` facts, the learnt ones follow from the basis. -/
def Settled (e : Engine) (marks : List Bool) (n k : Nat) : Prop :=
  ∀ w, e.Basis marks n k w → ∀ l ∈ e.database.units.toList.take k, l.holds w = true

/-- It only matters what there is of the oldest constraints and facts. -/
theorem Settled.transfer (h : e.Settled marks n k)
    (hgiven : e'.database.given.toList.take n = e.database.given.toList.take n)
    (hstored : ∀ a ∈ e.database.given.toList.take n, ∀ c, e.store.get? a = some c →
      ∃ c', e'.store.get? a = some c' ∧ c.Same c')
    (hunits : e'.database.units.toList.take k = e.database.units.toList.take k)
    (hmarks : marks'.take k = marks.take k) : e'.Settled marks' n k := by
  intro w hw
  rw [hunits]
  refine h w ⟨fun a ha c hc => ?_, fun l hl => hw.facts l ?_⟩
  · obtain ⟨c', hc', hsame⟩ := hstored a ha c hc
    rw [← hsame.holds_eq]
    exact hw.given a (hgiven ▸ ha) c' hc'
  · rw [hunits, hmarks]
    exact hl

/-- Everything follows from the given constraints and the added facts, now and in every
snapshot. -/
structure Founded (e : Engine) (marks : List Bool) (saved : List Snapshot) : Prop where
  length : marks.length = e.database.units.size
  fit : e.Fit e.Problem
  settled : e.Settled marks e.database.given.size e.database.units.size
  restorable : ∀ s ∈ saved, e.Restorable { s with ok := true }
  recalled : ∀ s ∈ saved, e.Settled marks s.clauses s.units

namespace Founded

/-- The basis of all constraints and facts implies the problem. -/
theorem problem (h : e.Founded marks saved) (hi : e.settings.incremental = true)
    (hw : e.Basis marks e.database.given.size e.database.units.size w) : e.Problem w := by
  rw [problem_iff_of_incremental hi]
  exact ⟨fun a ha => hw.given a (by rwa [List.take_of_length_le (by simp)]),
    fun l hl => h.settled w hw l (by rwa [List.take_of_length_le (by simp)])⟩

/-- The basis holds where the given constraints and the added facts do. -/
theorem basis (h : e.Founded marks saved)
    (hgiven : ∀ a ∈ e.database.given.toList, ∀ c, e.store.get? a = some c → c.holds w = true)
    (hfacts : ∀ l, (l, true) ∈ e.database.units.toList.zip marks → l.holds w = true) :
    e.Basis marks e.database.given.size e.database.units.size w where
  given a ha := hgiven a (List.mem_of_mem_take ha)
  facts l hl := hfacts l (by
    rwa [List.take_of_length_le (by simp), List.take_of_length_le (Nat.le_of_eq h.length)] at hl)

/-- A step that only adds keeps the foundation, if of the new facts the learnt ones follow from
the problem before and the added ones. -/
theorem grown {extra : List Lit} (h : e.Founded marks saved)
    (hi : e.settings.incremental = true) (he : e.Evolves e') (hfit : e'.Fit e'.Problem)
    (hunits : e'.database.units.toList = e.database.units.toList ++ extra)
    (hlength : new.length = extra.length)
    (hnew : ∀ w, e.Problem w → (∀ l, (l, true) ∈ extra.zip new → l.holds w = true) →
      ∀ l ∈ extra, l.holds w = true) : e'.Founded (marks ++ new) saved := by
  have hg := he.grown hi
  have hlength' : (marks ++ new).length = e'.database.units.size := by
    rw [List.length_append, h.length, hlength, ← Array.length_toList, ← Array.length_toList,
      hunits, List.length_append]
  have hzip : e'.database.units.toList.zip (marks ++ new) =
      e.database.units.toList.zip marks ++ extra.zip new := by
    rw [hunits, List.zip_append (by rw [h.length, Array.length_toList])]
  refine ⟨hlength', hfit, fun w hw => ?_, fun s hs => (h.restorable s hs).grown hg he.varCount,
    fun s hs => ?_⟩
  · have hall := hw.facts
    rw [List.take_of_length_le (by simp), List.take_of_length_le (Nat.le_of_eq hlength'),
      hzip] at hall
    -- the old part of the basis implies the problem before, and that the learnt facts
    have hproblem : e.Problem w := by
      refine h.problem hi (h.basis (fun a ha c hc => ?_) fun l hl =>
        hall l (List.mem_append_left _ hl))
      obtain ⟨c', hc', hsame⟩ := hg.stored a ha c hc
      rw [← hsame.holds_eq]
      exact hw.given a (by
        rw [List.take_of_length_le (by simp)]
        exact hg.given.subset ha) c' hc'
    intro l hl
    rw [List.take_of_length_le (by simp), hunits] at hl
    rcases List.mem_append.1 hl with hl | hl
    · exact hproblem.units l hl
    · exact hnew w hproblem (fun m hm => hall m (List.mem_append_right _ hm)) l hl
  · have hr := h.restorable s hs
    have hgiven := take_given_of_grown hr hg
    have hfacts := take_units_of_grown hr hg
    have hle : s.units ≤ marks.length := by
      have := hr.units
      rwa [Array.length_toList, ← h.length] at this
    exact (h.recalled s hs).transfer hgiven (fun a ha => hg.stored a (List.mem_of_mem_take ha))
      hfacts (List.take_append_of_le_length hle)

/-- A snapshot of the present state is founded as the state is. -/
theorem save {ok : Bool} (h : e.Founded marks saved) (hi : e.settings.incremental = true)
    (hs : e.snapshot ok = .ok s) : e.Founded marks (s :: saved) := by
  obtain ⟨hground, rfl⟩ := snapshot_eq_ok.1 hs
  obtain ⟨-, hrestorable, -⟩ := restorable_of_snapshot h.fit (fun _ _ => id) hi
    (snapshot_eq_ok.2 ⟨hground, rfl⟩ : e.snapshot true = .ok _)
  exact ⟨h.length, h.fit, h.settled, List.forall_mem_cons.2 ⟨hrestorable, h.restorable⟩,
    List.forall_mem_cons.2 ⟨h.settled, h.recalled⟩⟩

/-- Going back to a snapshot leaves what it was founded on, and the snapshots that are older. -/
theorem cut {saved' : List Snapshot} (h : e.Founded marks saved)
    (hi : e.settings.incremental = true) (hs : s ∈ saved) (hsub : ∀ q ∈ saved', q ∈ saved)
    (holder : ∀ q ∈ saved', q.Older s) (hd : e.discardSince s = .ok e') :
    e'.Founded (marks.take s.units) saved' := by
  have hr := h.restorable s hs
  -- whether the state was in order does not matter for what is discarded
  have hd' : e.discardSince { s with ok := true } = .ok e' := hd
  obtain ⟨hcut, hfit, -⟩ := cut_of_discardSince h.fit hi hr hd'
  have hself : Snapshot.Older { s with ok := true } { s with ok := true } := .refl _
  have holder' : ∀ q ∈ saved', Snapshot.Older { q with ok := true } { s with ok := true } :=
    fun q hq => ⟨(holder q hq).vars, (holder q hq).clauses, (holder q hq).learnts,
      (holder q hq).units⟩
  have htransfer : ∀ q : Snapshot, Snapshot.Older { q with ok := true } { s with ok := true } →
      e.Settled marks q.clauses q.units → e'.Settled (marks.take s.units) q.clauses q.units :=
    fun q hq hsettled => by
      have hgiven := hcut.take_given hq
      have hfacts := hcut.take_units hq
      refine hsettled.transfer hgiven (fun a ha c hc => ⟨c, hcut.stored a ?_ c hc, .refl c⟩) hfacts ?_
      · exact List.take_subset_take_left _ hq.clauses ha
      · rw [List.take_take, Nat.min_eq_left hq.units]
  have hclauses : e'.database.given.size = s.clauses := by
    rw [← Array.length_toList, hcut.given, List.length_take]
    exact Nat.min_eq_left hr.clauses
  have hunits : e'.database.units.size = s.units := by
    rw [← Array.length_toList, hcut.units, List.length_take]
    exact Nat.min_eq_left hr.units
  refine ⟨?_, hfit.anti fun w hw => ⟨rfl, (hcut.kept_iff hself).1 ?_⟩, ?_,
    fun q hq => hcut.restorable (holder' q hq) (h.restorable q (hsub q hq)),
    fun q hq => htransfer q (holder' q hq) (h.recalled q (hsub q hq))⟩
  · rw [hunits, List.length_take, h.length, ← Array.length_toList]
    exact Nat.min_eq_left hr.units
  · exact ⟨fun a ha => hw.given a (List.mem_of_mem_take ha),
      fun l hl => hw.units l (List.mem_of_mem_take hl)⟩
  · rw [hclauses, hunits]
    exact htransfer s hself (h.recalled s hs)

/-- Steps without new facts. -/
theorem same (h : e.Founded marks saved) (hi : e.settings.incremental = true)
    (he : e.Evolves e') (hfit : e'.Fit e'.Problem)
    (hunits : e'.database.units = e.database.units) : e'.Founded marks saved := by
  have hnil : e'.database.units.toList = e.database.units.toList ++ [] := by
    rw [hunits, List.append_nil]
  have hnone : ([] : List Bool).length = ([] : List Lit).length := rfl
  have := h.grown hi he hfit hnil hnone fun _ _ _ l hl => absurd hl List.not_mem_nil
  rwa [List.append_nil] at this

/-- Going back and replaying the facts. -/
theorem rollback {saved' : List Snapshot} {b : Bool} (h : e.Founded marks saved)
    (hi : e.settings.incremental = true) (hs : s ∈ saved) (hsub : ∀ q ∈ saved', q ∈ saved)
    (holder : ∀ q ∈ saved', q.Older s) (hroll : e.rollback s = .ok (b, e')) :
    e'.Founded (marks.take s.units) saved' ∧ e'.settings.incremental = true := by
  rw [Engine.rollback, bind_eq_ok] at hroll
  obtain ⟨e₁, hdiscard, hreplay⟩ := hroll
  have h₁ := h.cut hi hs hsub holder hdiscard
  have hd' : e.discardSince { s with ok := true } = .ok e₁ := hdiscard
  obtain ⟨hcut, -, hlits, hhead, hground⟩ :=
    cut_of_discardSince h.fit hi (h.restorable s hs) hd'
  have hi₁ : e₁.settings.incremental = true := hcut.settings ▸ hi
  split at hreplay
  next =>
      have hidle : e₁.Idle := by
        rw [Idle, hhead, hlits]
        rfl
      have hwatch : e₁.Watching := fun a c _ key _ hdone => by
        have := List.mem_of_mem_take hdone
        rw [hlits] at this
        cases this
      have hr := replayed_of_replay h₁.fit hground hidle hwatch (fun w hw => hw.units) hreplay
      have he := hr.reaches.evolves
      exact ⟨h₁.same hi₁ he (hr.reaches.fit.anti he.problem) (by rw [hr.database]),
        he.settings ▸ hi₁⟩
  next =>
      obtain ⟨-, rfl⟩ := Prod.mk.inj (pure_eq_ok.1 hreplay)
      exact ⟨h₁, hi₁⟩

end Founded

end Engine

end CardSat
