import CardSat.Proofs.Engine.Preserving
import CardSat.Proofs.Ledger.TakingIn

set_option autoImplicit false

/-! # What happens after a save

`Since` are the calls that follow a state of a run without going back behind it: a snapshot may be
loaded if it is the newest of that state, or younger. Whatever happens, a snapshot that was live in
the first state stays live, and what it counts on is preserved (`preserves_of_since`).

A relation of its own is needed since a run that goes back behind a state and comes forward again
has other constraints under the same numbers. The condition on what is loaded is one on lists: the
list of live snapshots of the first state is a suffix of every later one.
-/

namespace CardSat

/-- Calls that follow a solver with its ledger, and load no snapshot older than the newest one
there. -/
inductive Since (rules : Rules) (s : Solver) (L : Ledger) : Solver → Ledger → Prop
  | refl : Since rules s L s L
  | call {s' s'' : Solver} {L' L'' : Ledger} (hs : Since rules s L s' L')
      (h : Call rules s' L' s'' L'') : Since rules s L s'' L''
  | load {s' s'' : Solver} {L' : Ledger} {snapshot : Snapshot} {added : List Demand}
      {younger older : List (Snapshot × List Demand)} (hs : Since rules s L s' L')
      (hsaved : L'.saved = younger ++ (snapshot, added) :: older)
      (hyoung : L.saved <:+ (snapshot, added) :: older) (h : s'.load snapshot = .ok s'') :
      Since rules s L s'' ⟨added, (snapshot, added) :: older, False⟩

variable {rules : Rules} {s s' : Solver} {L L' : Ledger}

/-! ## Runs -/

theorem run_of_since (hr : Run rules s L) (h : Since rules s L s' L') : Run rules s' L' := by
  induction h with
  | refl => exact hr
  | call _ h ih => exact ih.call h
  | load _ hsaved _ h ih => exact ih.load hsaved h

theorem since_of_calls (h : Calls rules s L s' L') : Since rules s L s' L' := by
  induction h with
  | refl => exact .refl
  | call _ h ih => exact ih.call h

theorem saved_of_call (h : Call rules s L s' L') : L.saved <:+ L'.saved := by
  cases h with
  | newVar => exact List.suffix_rfl
  | add => exact List.suffix_rfl
  | preprocess => exact List.suffix_rfl
  | solve => exact List.suffix_rfl
  | save => exact List.suffix_cons _ _

/-- The snapshots of the first state stay live. -/
theorem saved_of_since (h : Since rules s L s' L') : L.saved <:+ L'.saved := by
  induction h with
  | refl => exact List.suffix_rfl
  | call _ h ih => exact ih.trans (saved_of_call h)
  | load _ _ hyoung => exact hyoung

/-! ## Keeping what was saved -/

/-- Calls that do not go back only add to what is there. -/
theorem evolves_of_call (hv : Valid rules s L) (h : Call rules s L s' L') :
    s.engine.Evolves s'.engine := by
  cases h with
  | newVar negated decision _ h => exact (takesIn_of_newVar hv h).evolves
  | add d hlength hplain h => exact (takesIn_of_demand hv hlength hplain h).evolves
  | preprocess h => exact (takesIn_of_preprocess hv h).evolves
  | save h => exact (takesIn_of_save hv h).evolves
  | solve budget assumptions handler h _ =>
      rcases returns_solve h with ⟨-, -, rfl⟩ | ⟨-, ⟨_, _, hsearch⟩, -⟩
      · exact .refl _
      · have hw : False → s.engine.Watching := False.elim
        exact (Engine.concluded_of_search hv.fit hw hsearch).1.evolves

/-- What a live snapshot counts on is preserved. -/
theorem preserves_of_since {e₀ : Engine} {p : Snapshot × List Demand} (hr : Run rules s L)
    (hlive : p ∈ L.saved) (hp : Engine.Preserves p.1 e₀ s.engine) (h : Since rules s L s' L') :
    Engine.Preserves p.1 e₀ s'.engine := by
  induction h with
  | refl => exact hp
  | call hs h ih =>
      have hv := valid_of_run (run_of_since hr hs)
      have hrecalls := hv.recalls p ((saved_of_since hs).subset hlive)
      exact ih.grown hrecalls.restorable ((evolves_of_call hv h).grown hrecalls.incremental)
  | @load s₁ s₂ L₁ snapshot added younger older hs hsaved hyoung h ih =>
      have hv := valid_of_run (run_of_since hr hs)
      have hmem : ∀ q ∈ (snapshot, added) :: older, q ∈ L₁.saved := fun q hq =>
        hsaved ▸ List.mem_append_right younger hq
      have hrecalls := hv.recalls _ (hmem _ (hyoung.subset hlive))
      have hrecalls' := hv.recalls _ (hmem (snapshot, added) List.mem_cons_self)
      have holder := older_of_live hv.older hsaved p (hyoung.subset hlive)
      obtain ⟨hi, replayed, e, hroll, rfl⟩ := Solver.load_eq_ok.1 h
      obtain ⟨e₁, hback⟩ :=
        Engine.rolledBack_of_rollback hv.fit hi hrecalls'.restorable hroll
      have hreport := Engine.reaches_of_report hback.fit (.loaded snapshot (snapshot.ok && replayed))
      have hi₁ : e₁.settings.incremental = true := hback.cut.settings ▸ hi
      -- going back, then replaying, then making a note
      exact (ih.cut hback.cut holder).grown (hback.cut.restorable holder hrecalls.restorable)
        ((hback.evolves.trans hreport.evolves).grown hi₁)

end CardSat
