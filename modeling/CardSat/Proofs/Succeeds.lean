import CardSat.Proofs.Checked

set_option autoImplicit false

/-! # Calls that are not refused

A computation `Succeeds` when it has a result. The lemmas follow the shape of computations: a
sequence succeeds when each step does after what the steps before can have answered, and a loop when
an invariant makes each of its rounds succeed (`succeeds_foldlM`).

That a computation returns and what it returns are shown apart wherever what it returns does not
matter for its returning. Where it does, the invariant of the loop carries both, and the lemmas here
give the result together with the invariant.
-/

namespace CardSat

variable {α β : Type}

/-- The computation is not refused. -/
def Succeeds (x : Checked α) : Prop := ∃ a, x = .ok a

theorem succeeds_ok (a : α) : Succeeds (.ok a) := ⟨a, rfl⟩

theorem succeeds_pure (a : α) : Succeeds (pure a : Checked α) := ⟨a, rfl⟩

theorem succeeds_bind {x : Checked α} {f : α → Checked β} (hx : Succeeds x)
    (hf : ∀ a, x = .ok a → Succeeds (f a)) : Succeeds (x >>= f) := by
  obtain ⟨a, ha⟩ := hx
  obtain ⟨b, hb⟩ := hf a ha
  exact ⟨b, bind_eq_ok.2 ⟨a, ha, hb⟩⟩

theorem succeeds_require {b : Bool} (f : Fault) (h : b = true) : Succeeds (require b f) :=
  ⟨(), require_eq_ok.2 h⟩

theorem succeeds_fetch {xs : Array α} {i : Nat} (h : i < xs.size) : Succeeds (fetch xs i) :=
  ⟨xs[i], fetch_eq_ok.2 (Array.getElem?_eq_getElem h)⟩

/-- The loop rule: an invariant of the list that is left and the state makes every round
succeed. -/
theorem succeeds_foldlM {f : β → α → Checked β} (P : List α → β → Prop)
    (step : ∀ a rest b, P (a :: rest) b → ∃ b', f b a = .ok b' ∧ P rest b') :
    ∀ {as : List α} {b : β}, P as b → ∃ b', as.foldlM f b = .ok b' ∧ P [] b' := by
  intro as
  induction as with
  | nil => exact fun {b} hb => ⟨b, rfl, hb⟩
  | cons a rest ih =>
      intro b hb
      obtain ⟨b₁, h₁, hb₁⟩ := step a rest b hb
      obtain ⟨b', h', hb'⟩ := ih hb₁
      exact ⟨b', by rw [List.foldlM_cons, bind_eq_ok]; exact ⟨b₁, h₁, h'⟩, hb'⟩

theorem succeeds_filterMapM {f : α → Checked (Option β)} {as : List α}
    (h : ∀ a ∈ as, Succeeds (f a)) : Succeeds (as.filterMapM f) := by
  rw [List.filterMapM]
  suffices ∀ acc : List β, Succeeds (List.filterMapM.loop f as acc) from this []
  induction as with
  | nil => exact fun acc => succeeds_pure _
  | cons a rest ih =>
      intro acc
      rw [List.filterMapM.loop]
      refine succeeds_bind (h a (by simp)) fun o _ => ?_
      cases o with
      | none => exact ih (fun a ha => h a (List.mem_cons_of_mem _ ha)) _
      | some b => exact ih (fun a ha => h a (List.mem_cons_of_mem _ ha)) _

theorem succeeds_filterM {f : α → Checked Bool} {as : List α} (h : ∀ a ∈ as, Succeeds (f a)) :
    Succeeds (as.filterM f) := by
  rw [List.filterM]
  refine succeeds_bind ?_ fun _ _ => succeeds_pure _
  suffices ∀ acc : List α, Succeeds (as.filterAuxM f acc) from this []
  induction as with
  | nil => exact fun acc => succeeds_pure _
  | cons a rest ih =>
      intro acc
      rw [List.filterAuxM]
      exact succeeds_bind (h a (by simp)) fun b _ =>
        ih (fun a ha => h a (List.mem_cons_of_mem _ ha)) _

theorem succeeds_allM {f : α → Checked Bool} {as : List α} (h : ∀ a ∈ as, Succeeds (f a)) :
    Succeeds (as.allM f) := by
  induction as with
  | nil => exact succeeds_pure _
  | cons a rest ih =>
      rw [List.allM]
      refine succeeds_bind (h a (by simp)) fun b _ => ?_
      cases b with
      | true => exact ih fun a ha => h a (List.mem_cons_of_mem _ ha)
      | false => exact succeeds_pure _

end CardSat
