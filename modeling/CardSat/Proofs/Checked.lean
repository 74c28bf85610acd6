import CardSat.Fault
import Mathlib.Data.List.Basic

set_option autoImplicit false

/-! # Calls that were not refused

When a `Checked` computation has a result, so had each of its steps. The lemmas `bind_eq_ok`,
`pure_eq_ok`, `require_eq_ok` and `fetch_eq_ok` take a computation apart; `foldlM_ok` is the loop
rule, and the lemmas on `filterM`, `filterMapM`, `anyM` and `allM` say what a test with a known
answer computes.

Proofs about the model begin by taking the operation apart with these, from its result back to the
results of its steps. An operation that many proofs are about has an equation of its own (`eq_ok` at
the end of its name), and only the proof of that equation opens it.
-/

namespace CardSat

variable {α β : Type}

theorem bind_eq_ok {x : Checked α} {f : α → Checked β} {b : β} :
    (x >>= f) = .ok b ↔ ∃ a, x = .ok a ∧ f a = .ok b := by
  cases x with
  | error e => simp [bind, Except.bind]
  | ok a => simp [bind, Except.bind]

/-- A step with a known result. -/
theorem ok_bind (a : α) (f : α → Checked β) : ((.ok a : Checked α) >>= f) = f a := rfl

theorem pure_eq_ok {a b : α} : (pure a : Checked α) = .ok b ↔ a = b := by
  simp [pure, Except.pure]

theorem map_eq_ok {x : Checked α} {f : α → β} {b : β} :
    f <$> x = .ok b ↔ ∃ a, x = .ok a ∧ f a = b := by
  cases x with
  | error e => simp [Functor.map, Except.map]
  | ok a => simp [Functor.map, Except.map]

theorem throw_ne_ok {f : Fault} {b : α} : (throw f : Checked α) = .ok b ↔ False := by
  simp [throw, throwThe, MonadExceptOf.throw]

theorem require_eq_ok {b : Bool} {f : Fault} {u : Unit} : require b f = .ok u ↔ b = true := by
  cases b <;> simp [require]

theorem present_eq_ok {o : Option α} {a : α} : present o = .ok a ↔ o = some a := by
  cases o <;> simp [present]

theorem fetch_eq_ok {xs : Array α} {i : Nat} {a : α} : fetch xs i = .ok a ↔ xs[i]? = some a :=
  present_eq_ok

/-- The result behind a test that it passes. -/
theorem exists_ok_of_test {x : Checked α} {p : α → Bool} (h : x.toOption.any p = true) :
    ∃ a, x = .ok a ∧ p a = true := by
  cases x with
  | error e => cases h
  | ok a => exact ⟨a, rfl, h⟩

/-- The loop rule: what holds of the list and the start, and passes from a list to its tail
with each step, holds of the empty list and the result. -/
theorem foldlM_ok {f : β → α → Checked β} (P : List α → β → Prop)
    (step : ∀ a rest b b', P (a :: rest) b → f b a = .ok b' → P rest b') :
    ∀ {as : List α} {b b' : β}, P as b → as.foldlM f b = .ok b' → P [] b' := by
  intro as
  induction as with
  | nil =>
      intro b b' hb h
      rw [List.foldlM_nil, pure_eq_ok] at h
      exact h ▸ hb
  | cons a rest ih =>
      intro b b' hb h
      rw [List.foldlM_cons, bind_eq_ok] at h
      obtain ⟨b₁, h₁, h₂⟩ := h
      exact ih (step a rest b b₁ hb h₁) h₂

theorem filterAuxM_ok {f : α → Checked Bool} {p : α → Bool} :
    ∀ {as acc bs : List α}, (∀ a ∈ as, ∀ r, f a = .ok r → r = p a) →
      as.filterAuxM f acc = .ok bs → bs = (as.filter p).reverse ++ acc := by
  intro as
  induction as with
  | nil =>
      intro acc bs _ h
      rw [List.filterAuxM, pure_eq_ok] at h
      simp [h]
  | cons a rest ih =>
      intro acc bs hp h
      rw [List.filterAuxM, bind_eq_ok] at h
      obtain ⟨r, hr, h⟩ := h
      have hra : r = p a := hp a (by simp) r hr
      have := ih (fun x hx => hp x (by simp [hx])) h
      rw [this, hra]
      cases hpa : p a <;> simp [hpa]

/-- A filter whose test has the answers of `p` is the filter by `p`. -/
theorem filterM_ok {f : α → Checked Bool} {p : α → Bool} {as bs : List α}
    (hp : ∀ a ∈ as, ∀ r, f a = .ok r → r = p a) (h : as.filterM f = .ok bs) :
    bs = as.filter p := by
  rw [List.filterM, bind_eq_ok] at h
  obtain ⟨cs, hcs, h⟩ := h
  rw [pure_eq_ok] at h
  rw [← h, filterAuxM_ok hp hcs]
  simp

/-- A filter that has a result tested every element. -/
theorem filterM_tested {f : α → Checked Bool} {as bs : List α} (h : as.filterM f = .ok bs) :
    ∀ a ∈ as, ∃ r, f a = .ok r := by
  rw [List.filterM, bind_eq_ok] at h
  obtain ⟨cs, hcs, -⟩ := h
  suffices ∀ (as acc cs : List α), as.filterAuxM f acc = .ok cs → ∀ a ∈ as, ∃ r, f a = .ok r from
    this _ _ _ hcs
  intro as
  induction as with
  | nil => intro _ _ _ a ha; cases ha
  | cons b rest ih =>
      intro acc cs h a ha
      rw [List.filterAuxM, bind_eq_ok] at h
      obtain ⟨r, hr, h⟩ := h
      rcases List.mem_cons.1 ha with rfl | ha
      · exact ⟨r, hr⟩
      · exact ih _ _ h a ha

/-- A `filterMapM` that answers is a `filterMap` of the answers. -/
theorem filterMapM_ok {f : α → Checked (Option β)} {as : List α} {bs : List β}
    (h : as.filterMapM f = .ok bs) :
    ∃ g : α → Option β, (∀ a ∈ as, f a = .ok (g a)) ∧ bs = as.filterMap g := by
  refine ⟨fun a => (f a).toOption.join, ?_⟩
  suffices hloop : ∀ {as : List α} {acc : List β}, List.filterMapM.loop f as acc = .ok bs →
      (∀ a ∈ as, f a = .ok (f a).toOption.join) ∧
        bs = acc.reverse ++ as.filterMap fun a => (f a).toOption.join from hloop h
  intro as
  induction as with
  | nil =>
      intro acc h
      rw [List.filterMapM.loop, pure_eq_ok] at h
      simp [← h]
  | cons a as ih =>
      intro acc h
      rw [List.filterMapM.loop, bind_eq_ok] at h
      obtain ⟨o, ho, h⟩ := h
      have hjoin : (f a).toOption.join = o := by rw [ho]; rfl
      cases o with
      | none =>
          obtain ⟨htested, hbs⟩ := ih h
          refine ⟨List.forall_mem_cons.2 ⟨hjoin ▸ ho, htested⟩, ?_⟩
          simp only [hbs, List.filterMap_cons, hjoin]
      | some b =>
          obtain ⟨htested, hbs⟩ := ih h
          refine ⟨List.forall_mem_cons.2 ⟨hjoin ▸ ho, htested⟩, ?_⟩
          simp only [hbs, List.filterMap_cons, hjoin, List.reverse_cons, List.append_assoc,
            List.singleton_append]

theorem anyM_ok {f : α → Checked Bool} {p : α → Bool} :
    ∀ {as : List α} {b : Bool}, (∀ a ∈ as, ∀ r, f a = .ok r → r = p a) →
      as.anyM f = .ok b → b = as.any p := by
  intro as
  induction as with
  | nil =>
      intro b _ h
      rw [List.anyM, pure_eq_ok] at h
      simp [← h]
  | cons a rest ih =>
      intro b hp h
      rw [List.anyM, bind_eq_ok] at h
      obtain ⟨r, hr, h⟩ := h
      have hra : r = p a := hp a (by simp) r hr
      cases r with
      | true =>
          rw [pure_eq_ok] at h
          simp [← h, ← hra]
      | false =>
          rw [List.any_cons, ← hra, Bool.false_or]
          exact ih (fun x hx => hp x (by simp [hx])) h

theorem allM_ok {f : α → Checked Bool} {p : α → Bool} :
    ∀ {as : List α} {b : Bool}, (∀ a ∈ as, ∀ r, f a = .ok r → r = p a) →
      as.allM f = .ok b → b = as.all p := by
  intro as
  induction as with
  | nil =>
      intro b _ h
      rw [List.allM, pure_eq_ok] at h
      simp [← h]
  | cons a rest ih =>
      intro b hp h
      rw [List.allM, bind_eq_ok] at h
      obtain ⟨r, hr, h⟩ := h
      have hra : r = p a := hp a (by simp) r hr
      cases r with
      | true =>
          rw [List.all_cons, ← hra, Bool.true_and]
          exact ih (fun x hx => hp x (by simp [hx])) h
      | false =>
          rw [pure_eq_ok] at h
          simp [← h, ← hra]

end CardSat
