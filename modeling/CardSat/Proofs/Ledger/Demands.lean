import CardSat.Proofs.Ledger

set_option autoImplicit false

/-! # Runs that begin with demands

A run that adds some variables and then some demands is evaluated before it is reasoned about:
`exists_run_of_test` turns a test that such a run passes into the `Run` behind it. The sorting of
the literals does not evaluate, so it is rewritten first, with `Lit.sortDistinct_of_pairwise`.
-/

namespace CardSat

variable {s s' : Solver} {L L' : Ledger} {rules : Rules} {σ : Type} {st : σ}
  {assumptions : List Lit} {handler : Handler (StateM σ)}

/-- The literals of the first variables. -/
def Lit.x0 : Lit := ⟨⟨0⟩, false⟩

@[inherit_doc Lit.x0]
def Lit.x1 : Lit := ⟨⟨1⟩, false⟩

@[inherit_doc Lit.x0]
def Lit.x2 : Lit := ⟨⟨2⟩, false⟩

@[inherit_doc Lit.x0]
def Lit.x3 : Lit := ⟨⟨3⟩, false⟩

@[inherit_doc Lit.x0]
def Lit.x4 : Lit := ⟨⟨4⟩, false⟩

/-- Gives up at the conflict after the last one that its state allows. -/
def ConflictLimit.toHandler : Handler (StateM ConflictLimit) :=
  ⟨modify start, modifyGet onConflict, pure ()⟩

namespace Solver

/-- Adds variables that may be decided. -/
def addVars : (vars : Nat) → Solver → Checked Solver
  | 0, s => return s
  | vars + 1, s => do addVars vars (← s.newVar false true).2

/-- Adds demands one after the other. -/
def addDemands : List Demand → Solver → Checked Solver
  | [], s => return s
  | d :: ds, s => do addDemands ds (← s.demand d).2

/-- The solver for some demands over the first variables. -/
def ofDemands (vars : Nat) (ds : List Demand) : Checked Solver := do
  addDemands ds (← addVars vars (← new {}))

end Solver

theorem run_of_addVars {vars : Nat} (hr : Run rules s L) (h : s.addVars vars = .ok s') :
    Run rules s' L := by
  induction vars generalizing s with
  | zero =>
      rw [Solver.addVars, pure_eq_ok] at h
      exact h ▸ hr
  | succ vars ih =>
      rw [Solver.addVars, bind_eq_ok] at h
      obtain ⟨⟨v, s₁⟩, h₁, h⟩ := h
      exact ih (hr.call (.newVar false true (fun _ => rfl) h₁)) h

theorem run_of_calls (hr : Run rules s L) (h : Calls rules s L s' L') : Run rules s' L' := by
  induction h with
  | refl => exact hr
  | call _ h ih => exact ih.call h

theorem calls_of_addDemands {s₀ : Solver} {L₀ : Ledger} {ds : List Demand}
    (hc : Calls rules s₀ L₀ s L) (hlength : ∀ d ∈ ds, d.lits.length < 2 ^ 63)
    (hplain : ∀ d ∈ ds, d.Plain) (h : s.addDemands ds = .ok s') :
    Calls rules s₀ L₀ s' { L with added := ds.reverse ++ L.added } := by
  induction ds generalizing s L with
  | nil =>
      rw [Solver.addDemands, pure_eq_ok] at h
      exact h ▸ hc
  | cons d ds ih =>
      rw [Solver.addDemands, bind_eq_ok] at h
      obtain ⟨⟨b, s₁⟩, h₁, h⟩ := h
      have hc₁ := hc.call (.add d (hlength d (by simp)) (fun _ => hplain d (by simp)) h₁)
      have hc' := ih hc₁ (fun d hd => hlength d (List.mem_cons_of_mem _ hd))
        (fun d hd => hplain d (List.mem_cons_of_mem _ hd)) h
      rwa [List.reverse_cons, List.append_assoc]

theorem run_of_ofDemands {vars : Nat} {ds : List Demand}
    (hlength : ∀ d ∈ ds, d.lits.length < 2 ^ 63) (hplain : ∀ d ∈ ds, d.Plain)
    (h : Solver.ofDemands vars ds = .ok s) : Run rules s { added := ds.reverse } := by
  simp only [Solver.ofDemands, bind_eq_ok] at h
  obtain ⟨s₀, h₀, s₁, h₁, h⟩ := h
  have hr : Run rules s { added := ds.reverse ++ [] } :=
    run_of_calls (run_of_addVars (.new h₀) h₁) (calls_of_addDemands .refl hlength hplain h)
  rwa [List.append_nil] at hr

/-- The run behind a test that is passed after some demands were added. -/
theorem exists_run_of_test {α : Type} {vars : Nat} {ds : List Demand} {f : Solver → Checked α}
    {p : α → Bool} (h : (Solver.ofDemands vars ds >>= f).toOption.any p = true)
    (hlength : ∀ d ∈ ds, d.lits.length < 2 ^ 63) (hplain : ∀ d ∈ ds, d.Plain) :
    ∃ s a, (∀ rules, Run rules s { added := ds.reverse }) ∧ f s = .ok a ∧ p a = true := by
  obtain ⟨a, hx, ha⟩ := exists_ok_of_test h
  obtain ⟨s, hds, hf⟩ := bind_eq_ok.1 hx
  exact ⟨s, a, fun _ => run_of_ofDemands hlength hplain hds, hf, ha⟩

/-! ## Unlimited searches -/

/-- Solves within no budget, from a state of the handler. -/
def Solver.attempt (s : Solver) (assumptions : List Lit) (handler : Handler (StateM σ)) (st : σ) :
    Checked (Answer × Solver) :=
  ((s.solve {} assumptions handler).run.run st).1

theorem returns_of_attempt {x : Answer × Solver}
    (h : s.attempt assumptions handler st = .ok x) :
    ∃ st', Returns (s.solve {} assumptions handler) st x st' :=
  ⟨_, Prod.ext h rfl⟩

namespace Answer

/-- The model of an answer. -/
def model? : Answer → Option Model
  | sat m => some m
  | _ => none

/-- An answer with a model is not a refusal. -/
theorem ne_canceled_of_model {a : Answer} (h : a.model?.isSome = true) : a ≠ canceled := by
  rintro rfl
  cases h

/-- The core of an answer. -/
def core? : Answer → Option (List Lit)
  | unsat core => some core
  | _ => none

theorem exists_eq_sat {a : Answer} (h : a.model?.isSome = true) : ∃ m, a = sat m := by
  cases a with
  | sat m => exact ⟨m, rfl⟩
  | unsat core => cases h
  | interrupted x => cases h
  | canceled => cases h

@[inherit_doc ne_canceled_of_model]
theorem ne_canceled_of_core {a : Answer} (h : a.core?.isSome = true) : a ≠ canceled := by
  rintro rfl
  cases h

theorem eq_unsat {a : Answer} {core : List Lit} (h : a.core? = some core) : a = unsat core := by
  cases a with
  | unsat core' => exact congrArg unsat (Option.some.inj h)
  | sat m => cases h
  | interrupted x => cases h
  | canceled => cases h

end Answer

end CardSat
