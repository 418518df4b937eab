import Cryo.Lib.Progress

/-!
# Simulations

A system is simulated by another when every step it takes from a state is matched by steps of the other one from every
state that shows it, and the states they reach show one another again. Then so is every run (`Simulation.run`). Which
labels are allowed may depend on the system.
-/

namespace Simulation

open Progress

variable {μ ν σ τ : Type} {stepA : μ → σ → Option σ} (stepB : ν → τ → Option τ) (R : σ → τ → Prop)
  (allowedA : μ → Prop) (allowedB : ν → Prop)

theorem steps_append {ms ns : List ν} {t : τ} :
    steps stepB (ms ++ ns) t = (steps stepB ms t).bind (steps stepB ns) := by
  induction ms generalizing t with
  | nil => rfl
  | cons m ms ih =>
    simp only [List.cons_append, steps, Option.bind_assoc]
    congr 1
    funext t'
    exact ih

/-- **A run is matched by a run**, when every step is matched by steps. -/
theorem run (hstep : ∀ {m s s' t}, allowedA m → R s t → stepA m s = some s' →
      ∃ ns t', (∀ n ∈ ns, allowedB n) ∧ steps stepB ns t = some t' ∧ R s' t') :
    ∀ {ms : List μ} {s s' : σ} {t : τ}, (∀ m ∈ ms, allowedA m) → R s t → steps stepA ms s = some s' →
      ∃ ns t', (∀ n ∈ ns, allowedB n) ∧ steps stepB ns t = some t' ∧ R s' t'
  | [], _, _, t, _, h, hrun => by
    cases hrun
    exact ⟨[], t, by simp, rfl, h⟩
  | m :: ms, _, _, _, hall, h, hrun => by
    obtain ⟨s₁, hs, hrun⟩ := steps_cons.1 hrun
    obtain ⟨ns, t₁, hns, ht, h₁⟩ := hstep (hall m List.mem_cons_self) h hs
    obtain ⟨ns', t', hns', ht', h'⟩ := run hstep (fun m' hm' => hall m' (List.mem_cons_of_mem _ hm')) h₁ hrun
    refine ⟨ns ++ ns', t', fun n hn => (List.mem_append.1 hn).elim (hns n) (hns' n), ?_, h'⟩
    rw [steps_append, ht]
    exact ht'

end Simulation
