import Cryo.Lib.Progress

/-!
# Many components on one store

Any number of components take steps on a store that they share, each with a state of its own (`all`). A property of
every component is kept when each keeps its own and disturbs nobody else's (`all_keeps`).
-/

namespace Interference

variable {μ S σ : Type}

/-- The component `i` takes a step. -/
def all (step : Nat → μ → S → σ → Option (S × σ)) (m : Nat × μ) (x : S × List σ) : Option (S × List σ) :=
  x.2[m.1]?.bind fun c => (step m.1 m.2 x.1 c).map fun r => (r.1, x.2.set m.1 r.2)

section
variable {step : Nat → μ → S → σ → Option (S × σ)} {m : Nat × μ} {x x' : S × List σ} {cs : List σ}

theorem all_eq_some : all step m x = some x' ↔
    ∃ c c', x.2[m.1]? = some c ∧ step m.1 m.2 x.1 c = some (x'.1, c') ∧ x'.2 = x.2.set m.1 c' := by
  unfold all
  constructor
  · intro h
    obtain ⟨c, hc, h⟩ := Option.bind_eq_some_iff.1 h
    obtain ⟨⟨_, c'⟩, hstep, heq⟩ := Option.map_eq_some_iff.1 h
    cases heq
    exact ⟨c, c', hc, hstep, rfl⟩
  · rintro ⟨c, c', hc, hstep, hset⟩
    simp only [hc, Option.bind_some, hstep, Option.map_some, ← hset]

/-- After a step the component is the new one, and the others are the old ones. -/
theorem getElem?_set_cases {i j : Nat} {c e : σ} (h : (cs.set i c)[j]? = some e) :
    j = i ∧ e = c ∨ j ≠ i ∧ cs[j]? = some e := by
  by_cases hj : j = i
  · subst hj
    obtain ⟨hlt, heq⟩ := List.getElem?_eq_some_iff.1 h
    rw [List.getElem_set_self] at heq
    exact .inl ⟨rfl, heq.symm⟩
  · rw [List.getElem?_set_ne (Ne.symm hj)] at h
    exact .inr ⟨hj, h⟩

variable {I : Nat → S → σ → Prop} {allowed : μ → Prop}

theorem all_keeps_step (hown : ∀ {i} {m : μ} {s c s' c'}, allowed m → I i s c → step i m s c = some (s', c') → I i s' c')
    (hother : ∀ {i j} {m : μ} {s c s' c' e}, allowed m → i ≠ j → I i s c → I j s e → step i m s c = some (s', c') → I j s' e)
    (hm : allowed m.2) (h : ∀ j e, x.2[j]? = some e → I j x.1 e) (hstep : all step m x = some x') :
    ∀ j e, x'.2[j]? = some e → I j x'.1 e := by
  obtain ⟨c, c', hc, hmove, hset⟩ := all_eq_some.1 hstep
  intro j e hj
  rw [hset] at hj
  rcases getElem?_set_cases hj with ⟨rfl, rfl⟩ | ⟨hne, hj⟩
  · exact hown hm (h _ c hc) hmove
  · exact hother hm (Ne.symm hne) (h _ c hc) (h j e hj) hmove

/-- **What nobody disturbs holds in every interleaving** of allowed steps. -/
theorem all_keeps (hown : ∀ {i} {m : μ} {s c s' c'}, allowed m → I i s c → step i m s c = some (s', c') → I i s' c')
    (hother : ∀ {i j} {m : μ} {s c s' c' e}, allowed m → i ≠ j → I i s c → I j s e → step i m s c = some (s', c') → I j s' e)
    {ms : List (Nat × μ)} (hms : ∀ m ∈ ms, allowed m.2) (h : ∀ j e, x.2[j]? = some e → I j x.1 e)
    (hrun : Progress.steps (all step) ms x = some x') : ∀ j e, x'.2[j]? = some e → I j x'.1 e :=
  Progress.steps_keeps (I := fun x => ∀ j e, x.2[j]? = some e → I j x.1 e)
    (fun {m _ _} (hm : allowed m.2) h hstep => all_keeps_step (I := I) hown hother hm h hstep) hms h hrun

/-- The components are as many as before. -/
theorem length_all {ms : List (Nat × μ)} (hrun : Progress.steps (all step) ms x = some x') :
    x'.2.length = x.2.length :=
  Progress.steps_keeps (I := fun y => y.2.length = x.2.length)
    (fun _ h hstep => by
      obtain ⟨_, c', _, _, hset⟩ := all_eq_some.1 hstep
      rw [hset, List.length_set]
      exact h) (fun _ _ => trivial) rfl hrun

end

end Interference
