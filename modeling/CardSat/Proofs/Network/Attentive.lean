import CardSat.Proofs.Network.Assigning
import CardSat.Proofs.Network.Storing
import CardSat.Proofs.Propagation

set_option autoImplicit false

/-! # Conflicts that are left standing

Nobody has to go back when a constraint fails: further levels can be opened above the failed one,
and nothing waits that would reveal the violated constraint. A network is `Attentive` if constraints
are forgotten for this reason only, on levels above the ground level on which some constraint is
violated anyway (`Network.FailsAt`).

Every step keeps this, and where no constraint is violated nothing is forgotten
(`Attentive.watching`).

It is the weakest promise about watches that is true of a caller who decides and takes back as he
likes. The solver itself never opens a level above a conflict, so for a search `Watching` is enough;
but the two meet again when everything is taken back, because at the ground level nothing is
forgotten (`Attentive.watching_of_ground`).
-/

namespace CardSat

namespace Network

/-- The literals of the levels up to `k` violate some constraint. -/
def FailsAt (n : Network) (k : Nat) : Prop :=
  ∃ h c, n.store.get? h = some c ∧ c.Falsified (n.trail.rewind k).2

/-- Constraints are forgotten only where some constraint is violated, above the ground level. -/
def Attentive (n : Network) : Prop :=
  n.Watching fun _ key => 0 < n.trail.levelOf key.var ∧ n.FailsAt (n.trail.levelOf key.var)

variable {n n' : Network} {dead : Lit → Prop} {R : World → Prop} {k : Nat}

/-! ## Violated constraints -/

/-- What is violated stays so while literals are added and constraints rearranged. -/
theorem FailsAt.mono (h : n.FailsAt k) (hv : n.trail.Valid) (hv' : n'.trail.Valid)
    (hstore : ∀ a c, n.store.get? a = some c → ∃ c', n'.store.get? a = some c' ∧ c.Same c')
    (hmem : ∀ l ∈ n.trail, n.trail.levelOf l.var ≤ k →
      l ∈ n'.trail ∧ n'.trail.levelOf l.var = n.trail.levelOf l.var) : n'.FailsAt k := by
  obtain ⟨a, c, hc, hfalse⟩ := h
  obtain ⟨c', hc', hsame⟩ := hstore a c hc
  refine ⟨a, c', hc', (hfalse.same hsame).of_subset (Trail.valid_rewind hv k)
    (Trail.valid_rewind hv' k) fun l hl => ?_⟩
  obtain ⟨hl, hle⟩ := (Trail.mem_rewind hv).1 hl
  obtain ⟨hl', hlev⟩ := hmem l hl hle
  exact (Trail.mem_rewind hv').2 ⟨hl', hlev ▸ hle⟩

/-- Some constraint is violated then. -/
theorem FailsAt.exists_falsified (h : n.FailsAt k) (hv : n.trail.Valid) :
    ∃ a c, n.store.get? a = some c ∧ c.Falsified n.trail := by
  obtain ⟨a, c, hc, hfalse⟩ := h
  exact ⟨a, c, hc, hfalse.of_subset (Trail.valid_rewind hv k) hv fun l hl =>
    ((Trail.mem_rewind hv).1 hl).1⟩

/-- A conflict is one of the current level. -/
theorem Conflict.failsAt {a : Handle} (h : n.Conflict a) (hv : n.trail.Valid) :
    n.FailsAt n.trail.level := by
  obtain ⟨c, hc, hfalse, -⟩ := h
  refine ⟨a, c, hc, ?_⟩
  rwa [Trail.rewind_of_le hv (Nat.le_refl _)]

/-! ## What is forgotten -/

/-- Where nothing is forgotten, the network is attentive. -/
theorem Watching.attentive (h : n.Watching fun _ _ => False) : n.Attentive :=
  Watching.mono h fun _ _ _ _ _ _ hno => hno.elim

/-- Unless a constraint is violated, nothing is forgotten. -/
theorem Attentive.watching (h : n.Attentive) (hv : n.trail.Valid)
    (hno : ¬ ∃ a c, n.store.get? a = some c ∧ c.Falsified n.trail) :
    n.Watching fun _ _ => False :=
  Watching.mono h fun _ _ _ _ _ _ hdue => absurd (hdue.2.exists_falsified hv) hno

/-- At the ground level nothing is forgotten. -/
theorem Attentive.watching_of_ground (h : n.Attentive) (hv : n.trail.Valid)
    (hground : n.trail.level = 0) : n.Watching fun _ _ => False := by
  refine Watching.mono h fun _ _ _ key _ hdone hdue => ?_
  have := hv.levelOf_le (List.mem_of_mem_take hdone)
  omega

/-- A step after which nothing is due that was not due before. -/
theorem Attentive.step (hv : n.trail.Valid) (hv' : n'.trail.Valid)
    (hw : n'.Watching fun _ key => 0 < n.trail.levelOf key.var ∧ n.FailsAt (n.trail.levelOf key.var))
    (hstore : ∀ a c, n.store.get? a = some c → ∃ c', n'.store.get? a = some c' ∧ c.Same c')
    (hmem : ∀ l ∈ n.trail, l ∈ n'.trail ∧ n'.trail.levelOf l.var = n.trail.levelOf l.var)
    (hdone : ∀ l ∈ n'.trail.done, l ∈ n.trail) : n'.Attentive := by
  refine hw.mono fun _ _ _ key _ hkey hdue => Or.inl ?_
  rw [(hmem key (hdone key hkey)).2]
  exact ⟨hdue.1, hdue.2.mono hv hv' hstore fun l hl _ => hmem l hl⟩

/-! ## Going back -/

/-- Going back below the failed level takes away what was forgotten, and above it the constraint is
still violated. -/
theorem Attentive.rewind (h : n.Attentive) (hv : n.trail.Valid) (hq : n.trail.Queued) (b : Nat) :
    Attentive { n with trail := (n.trail.rewind b).2 } := by
  rcases Nat.lt_or_ge b n.trail.level with hb | hb
  · intro a c hc key hk hdone
    have hkey : key ∈ (n.trail.rewind b).2 := List.mem_of_mem_take hdone
    obtain ⟨hmem, hle⟩ := (Trail.mem_rewind hv).1 hkey
    have hdone' : key ∈ n.trail.done := hv.mem_done_of_levelOf_lt hq hmem (by omega)
    refine (h a c hc key hk hdone').imp (fun hdue => ?_) fun hsup =>
      hsup.keep (Trail.keeps_rewind hv hkey)
    simp only [Trail.levelOf_rewind]
    refine ⟨hdue.1, hdue.2.mono hv (Trail.valid_rewind hv b) (fun a c hc => ⟨c, hc, .refl c⟩)
      fun l hl hlev => ⟨(Trail.mem_rewind hv).2 ⟨hl, by omega⟩, Trail.levelOf_rewind _ _ _⟩⟩
  · rw [Trail.rewind_of_le hv hb]
    exact h

/-! ## Going on -/

/-- A new level changes nothing that is looked at. -/
theorem Attentive.openLevel (h : n.Attentive) (hv : n.trail.Valid) :
    Attentive { n with trail := n.trail.openLevel } :=
  .step hv (Trail.valid_openLevel hv) (Watching.openLevel h) (fun _ c hc => ⟨c, hc, .refl c⟩)
    (fun _ hl => ⟨hl, rfl⟩) fun _ hl => List.mem_of_mem_take hl

/-- A literal of the current level is added, which has not been propagated yet. -/
theorem Attentive.assign {t : Trail} {l : Lit} {r : Option Handle} (h : n.Attentive)
    (hv : n.trail.Valid) (ha : n.trail.Assigned l r t) : Attentive { n with trail := t } := by
  have hx := ha.extends hv
  refine .step hv (ha.valid hv) (Watching.extend h hv hx ha.head) (fun _ c hc => ⟨c, hc, .refl c⟩)
    (fun m hm => ⟨hx.mem hm, hx.levelOf hm⟩) fun m hm => ?_
  exact List.mem_of_mem_take (hx.done_eq hv ha.head ▸ hm)

/-- New activities of learnt clauses do not matter. -/
theorem Attentive.relabels (h : n.Attentive) (hv : n.trail.Valid) {store : Store}
    (hr : n.store.Relabels store) : Attentive { n with store } :=
  .step hv hv (Watching.relabels h hr) hr.same.forth (fun _ hl => ⟨hl, rfl⟩)
    fun _ hl => List.mem_of_mem_take hl

/-- A propagation that fails above the ground level leaves a violated constraint there. -/
theorem Attentive.propagate {failed : Option Handle} (h : n.Attentive)
    (hs : n.Sane dead n.index.line) (hr : n.Sound R) (hn : n.propagate = .ok (failed, n'))
    (hground : failed ≠ none → 0 < n.trail.level) : n'.Attentive := by
  have hv := hs.trail
  -- what is due on the levels of the old literals
  have hslack : n.Watching fun _ key => key ∈ n.trail ∧
      0 < n.trail.levelOf key.var ∧ n.FailsAt (n.trail.levelOf key.var) :=
    Watching.mono h fun _ _ _ _ _ hdone hdue => Or.inl ⟨List.mem_of_mem_take hdone, hdue⟩
  obtain ⟨hp, -⟩ := propagated_of_propagate hs hr hslack hn
  have hx := hp.advances.trail
  have hold : ∀ {key : Lit}, (key ∈ n.trail ∧ 0 < n.trail.levelOf key.var ∧
      n.FailsAt (n.trail.levelOf key.var)) →
      0 < n'.trail.levelOf key.var ∧ n'.FailsAt (n'.trail.levelOf key.var) := by
    rintro key ⟨hkey, hpos, hfails⟩
    rw [hx.levelOf hkey]
    exact ⟨hpos, hfails.mono hv hp.sane.trail hp.advances.store.forth fun l hl _ =>
      ⟨hx.mem hl, hx.levelOf hl⟩⟩
  cases failed with
  | none => exact (hp.watching rfl).mono fun _ _ _ _ _ _ hdue => Or.inl (hold hdue)
  | some a =>
      obtain ⟨hconf, hbelow⟩ := hp.conflict a rfl
      refine hbelow.mono fun _ _ _ key _ hdone hdue => Or.inl (hdue.elim hold fun hge => ?_)
      have hle := hp.sane.trail.levelOf_le (List.mem_of_mem_take hdone)
      have hpos := hground (by simp)
      rw [← hx.level_eq] at hpos
      rw [Nat.le_antisymm hle hge]
      exact ⟨hpos, hconf.failsAt hp.sane.trail⟩

end Network

end CardSat
