import Cryo.Lib.Act

/-!
# Runs that keep a log

A logging action runs on a state and a list of events: `Act.onState` runs an action on the state alone and
`Act.record` adds an event. `Erases y x` says that `y` is `x` when its log is forgotten, so that what is proved of the
log of `y` is about the runs of `x`.

`Ensures P x Q` is a frame rule with a result: no outcome of `x` destroys `P`, and what it returns satisfies `Q`.
-/

namespace Act

variable {σ ι ε δ α β : Type}

/-! ## Results under an invariant -/

/-- `P` holds after every outcome if it held before, and what is returned satisfies `Q`. -/
def Ensures (P : σ → Prop) (x : Act σ ε α) (Q : α → Prop) : Prop :=
  ∀ s, P s → wp x (fun a s' => Q a ∧ P s') (fun _ s' => P s') s

variable {P : σ → Prop} {Q : α → Prop}

theorem Ensures.of_keeps {x : Act σ ε α} (h : Keeps P x) : Ensures P x fun _ => True := fun s hs =>
  wp_mono (h s hs) (fun _ _ h => ⟨trivial, h⟩) fun _ _ h => h

theorem Ensures.keeps {x : Act σ ε α} (h : Ensures P x Q) : Keeps P x := fun s hs =>
  wp_mono (h s hs) (fun _ _ h => h.2) fun _ _ h => h

theorem Ensures.lift {r : Except ε α} (h : ∀ a, r = .ok a → Q a) : Ensures P (lift r) Q := fun _ hs =>
  (wp_lift r).2 ⟨fun a ha => ⟨h a ha, hs⟩, fun _ _ => hs⟩

theorem Ensures.pure {a : α} (h : Q a) : Ensures P (pure a : Act σ ε α) Q := fun _ hs => ⟨h, hs⟩

theorem Ensures.bind {x : Act σ ε α} {f : α → Act σ ε β} {R : β → Prop} (hx : Ensures P x Q)
    (hf : ∀ a, Q a → Ensures P (f a) R) : Ensures P (x >>= f) R := by
  intro s hs
  rw [wp_bind]
  exact wp_mono (hx s hs) (fun a s' h => hf a h.1 s' h.2) fun _ _ h => h

theorem Ensures.mapErr {f : ε → δ} {x : Act σ ε α} (hx : Ensures P x Q) : Ensures P (mapErr f x) Q := by
  intro s hs
  rw [wp_mapErr]
  exact hx s hs

/-! ## Logging -/

/-- An action that does not log. -/
def onState (x : Act σ ε α) : Act (σ × List ι) ε α := zoom Prod.fst (fun s t => (t, s.2)) x

/-- A logging action on a part of the state. -/
def zoomState {τ : Type} (get : σ → τ) (set : σ → τ → σ) (y : Act (τ × List ι) ε α) : Act (σ × List ι) ε α :=
  zoom (fun s => (get s.1, s.2)) (fun s t => (set s.1 t.1, t.2)) y

/-- One more event. -/
def record (i : ι) : Act (σ × List ι) ε Unit := modify fun s => (s.1, s.2 ++ [i])

/-- The log of a run. -/
def logOf (y : Act (σ × List ι) ε α) (s : σ) : List ι := (y (s, [])).2.2

/-- `y` is `x` with a log. -/
def Erases (y : Act (σ × List ι) ε α) (x : Act σ ε α) : Prop :=
  ∀ s log, (y (s, log)).1 = (x s).1 ∧ (y (s, log)).2.1 = (x s).2

theorem Erases.onState (x : Act σ ε α) : Erases (ι := ι) (onState x) x := fun _ _ => ⟨rfl, rfl⟩

theorem Erases.pure (a : α) : Erases (pure a : Act (σ × List ι) ε α) (pure a) := fun _ _ => ⟨rfl, rfl⟩

theorem Erases.lift (r : Except ε α) : Erases (lift r : Act (σ × List ι) ε α) (Act.lift r) := fun _ _ => ⟨rfl, rfl⟩

theorem Erases.throw (e : ε) : Erases (throw e : Act (σ × List ι) ε α) (Act.throw e) := fun _ _ => ⟨rfl, rfl⟩

theorem Erases.record_bind {i : ι} {y : Unit → Act (σ × List ι) ε α} {x : Act σ ε α} (h : Erases (y ()) x) :
    Erases (record i >>= y) x := fun s log => h s (log ++ [i])

theorem Erases.bind {y : Act (σ × List ι) ε α} {x : Act σ ε α} {g : α → Act (σ × List ι) ε β} {f : α → Act σ ε β}
    (h : Erases y x) (hf : ∀ a, Erases (g a) (f a)) : Erases (y >>= g) (x >>= f) := by
  intro s log
  obtain ⟨h1, h2⟩ := h s log
  rw [bind_run, bind_run]
  cases hx : x s with
  | mk r s' =>
    cases hy : y (s, log) with
    | mk r' t =>
      rw [hx, hy] at h1 h2
      obtain rfl : r' = r := h1
      obtain rfl : t.1 = s' := h2
      cases r' with
      | ok a => exact hf a t.1 t.2
      | error e => exact ⟨rfl, rfl⟩

theorem Erases.zoomState {τ : Type} {y : Act (τ × List ι) ε α} {x : Act τ ε α} (h : Erases y x) (get : σ → τ)
    (set : σ → τ → σ) : Erases (zoomState get set y) (zoom get set x) := fun s log =>
  ⟨(h (get s) log).1, congrArg (set s) (h (get s) log).2⟩

theorem keeps_onState {R : List ι → Prop} (x : Act σ ε α) : Keeps (fun s => R s.2) (onState x) := by
  intro s hs
  unfold wp onState zoom
  cases hx : x s.1 with
  | mk r t => cases r <;> exact hs

theorem keeps_record {R : List ι → Prop} {i : ι} (h : ∀ log, R log → R (log ++ [i])) :
    Keeps (fun s => R s.2) (record i : Act (σ × List ι) ε Unit) := fun s hs => h s.2 hs

/-- What holds of the empty log and is kept holds of the log of a run. -/
theorem Keeps.logOf {R : List ι → Prop} {y : Act (σ × List ι) ε α} (h : Keeps (fun s => R s.2) y) (h0 : R []) (s : σ) :
    R (logOf y s) := snd_of_wp (R := fun s : σ × List ι => R s.2) (h (s, []) h0)

end Act
