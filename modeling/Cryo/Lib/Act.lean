import Mathlib.Data.List.Forall2

/-!
# Actions on a state that survives errors

`Act σ ε α` changes a state `σ` and returns an `α` or an error `ε`; the changes made before an error stay, as those of
a program that returns early do. `wp x Q E s` says that running `x` from `s` ends in `Q` when it returns and in `E`
when it fails; the rules (`wp_bind`, `wp_throw`, `wp_mono`, `wp_mapErr`, `wp_tryCatch`) compute it along a program.
`Keeps P x` is the frame rule for a state property that no outcome of `x` destroys. For plain results,
`Except.bind_eq_ok` takes a successful bind apart.
-/

/-- What the left list of related lists has, the right one has a partner of. -/
theorem List.Forall₂.exists_of_mem {α β : Type} {R : α → β → Prop} {l : List α} {m : List β} (h : List.Forall₂ R l m)
    {a : α} (ha : a ∈ l) : ∃ b ∈ m, R a b := by
  induction h with
  | nil => cases ha
  | cons hab _ ih =>
    rcases List.mem_cons.1 ha with rfl | ha
    · exact ⟨_, List.mem_cons_self, hab⟩
    · obtain ⟨b, hb, hR⟩ := ih ha
      exact ⟨b, List.mem_cons_of_mem _ hb, hR⟩

namespace Except

variable {ε α β : Type}

@[simp] theorem ok_bind (a : α) (f : α → Except ε β) : (Except.ok a >>= f) = f a := rfl

@[simp] theorem error_bind (e : ε) (f : α → Except ε β) : (Except.error e >>= f) = Except.error e := rfl

/-- What a result that came through a bind shows. -/
theorem bind_eq_ok {x : Except ε α} {f : α → Except ε β} {b : β} :
    (x >>= f) = .ok b ↔ ∃ a, x = .ok a ∧ f a = .ok b := by
  cases x <;> simp

theorem map_eq_ok {x : Except ε α} {f : α → β} {b : β} : x.map f = .ok b ↔ ∃ a, x = .ok a ∧ f a = b := by
  cases x <;> simp [Except.map]

theorem mapError_eq_ok {δ : Type} {x : Except ε α} {f : ε → δ} {a : α} : x.mapError f = .ok a ↔ x = .ok a := by
  cases x <;> simp [Except.mapError]

/-- A result whose shown part is known. -/
theorem exists_of_toOption_map {x : Except ε α} {f : α → β} {b : β} (h : x.toOption.map f = some b) :
    ∃ a, x = .ok a ∧ f a = b := by
  cases x with
  | error e => cases h
  | ok a => exact ⟨a, rfl, Option.some.inj h⟩

/-- A successful pass over a list, element by element. -/
theorem mapM_eq_ok {f : α → Except ε β} : ∀ {l : List α} {r : List β},
    l.mapM f = .ok r ↔ List.Forall₂ (fun a b => f a = .ok b) l r
  | [], r => by simp [pure, Except.pure, eq_comm]
  | a :: l, r => by
    rw [List.mapM_cons, bind_eq_ok, List.forall₂_cons_left_iff]
    constructor
    · rintro ⟨b, hb, h⟩
      obtain ⟨bs, hbs, h⟩ := bind_eq_ok.1 h
      cases h
      exact ⟨b, bs, hb, mapM_eq_ok.1 hbs, rfl⟩
    · rintro ⟨b, bs, hb, hbs, rfl⟩
      exact ⟨b, hb, bind_eq_ok.2 ⟨bs, mapM_eq_ok.2 hbs, rfl⟩⟩

theorem mem_of_mapM_ok {f : α → Except ε β} {l : List α} {r : List β} (h : l.mapM f = .ok r) {b : β} (hb : b ∈ r) :
    ∃ a ∈ l, f a = .ok b := by
  have h' := mapM_eq_ok.1 h
  induction h' with
  | nil => cases hb
  | cons hab hl ih =>
    rcases List.mem_cons.1 hb with rfl | hb
    · exact ⟨_, List.mem_cons_self, hab⟩
    · obtain ⟨a, ha, hfa⟩ := ih (mapM_eq_ok.2 hl) hb
      exact ⟨a, List.mem_cons_of_mem _ ha, hfa⟩

/-- Results of different arguments. -/
theorem pairwise_of_mapM {f : α → Except ε β} {S : β → β → Prop} {l : List α} {r : List β} (h : l.mapM f = .ok r)
    (hnodup : l.Nodup) (hS : ∀ a ∈ l, ∀ a' ∈ l, a ≠ a' → ∀ b b', f a = .ok b → f a' = .ok b' → S b b') :
    r.Pairwise S := by
  have h' := mapM_eq_ok.1 h
  induction h' with
  | nil => exact .nil
  | @cons a b l r hab hl ih =>
    obtain ⟨hnew, hnodup⟩ := List.nodup_cons.1 hnodup
    refine .cons (fun b' hb' => ?_) (ih (mapM_eq_ok.2 hl) hnodup fun x hx y hy =>
      hS x (List.mem_cons_of_mem a hx) y (List.mem_cons_of_mem a hy))
    obtain ⟨a', ha', hab'⟩ := mem_of_mapM_ok (mapM_eq_ok.2 hl) hb'
    refine hS a List.mem_cons_self a' (List.mem_cons_of_mem a ha') ?_ b b' hab hab'
    rintro rfl
    exact hnew ha'

/-- A pass that fails nowhere succeeds. -/
theorem exists_mapM_ok {f : α → Except ε β} : ∀ {l : List α}, (∀ a ∈ l, ∃ b, f a = .ok b) → ∃ r, l.mapM f = .ok r
  | [], _ => ⟨[], rfl⟩
  | a :: l, h => by
    obtain ⟨b, hb⟩ := h a List.mem_cons_self
    obtain ⟨r, hr⟩ := exists_mapM_ok fun c hc => h c (List.mem_cons_of_mem a hc)
    exact ⟨b :: r, mapM_eq_ok.2 (.cons hb (mapM_eq_ok.1 hr))⟩

end Except

/-- State passing with errors that keep the state. -/
def Act (σ ε α : Type) := σ → Except ε α × σ

namespace Act

variable {σ ε δ α β : Type}

/-- Running a list of continuations on the result. -/
def bind (x : Act σ ε α) (f : α → Act σ ε β) : Act σ ε β := fun s =>
  match x s with
  | (.ok a, s') => f a s'
  | (.error e, s') => (.error e, s')

instance : Monad (Act σ ε) where
  pure a := fun s => (.ok a, s)
  bind := bind

instance : LawfulMonad (Act σ ε) := LawfulMonad.mk' (Act σ ε)
  (fun x => funext fun s => by
    show bind x (fun a => pure a) s = x s
    unfold bind
    cases h : x s with
    | mk r s' => cases r <;> rfl)
  (fun _ _ => rfl)
  (fun x f g => funext fun s => by
    show bind (bind x f) g s = bind x (fun a => bind (f a) g) s
    unfold bind
    cases x s with
    | mk r s' => cases r <;> rfl)

/-- Early return with an error. -/
def throw (e : ε) : Act σ ε α := fun s => (.error e, s)

/-- `map_err`. -/
def mapErr (f : ε → δ) (x : Act σ ε α) : Act σ δ α := fun s =>
  match x s with
  | (.ok a, s') => (.ok a, s')
  | (.error e, s') => (.error (f e), s')

/-- Matching on the outcome. -/
def tryCatch (x : Act σ ε α) (h : ε → Act σ δ α) : Act σ δ α := fun s =>
  match x s with
  | (.ok a, s') => (.ok a, s')
  | (.error e, s') => h e s'

/-- Running `x` on a part of the state. -/
def zoom {τ : Type} (get : σ → τ) (set : σ → τ → σ) (x : Act τ ε α) : Act σ ε α := fun s =>
  let r := x (get s)
  (r.1, set s r.2)

/-- Running `x` on the first part of the state. -/
def onFst {ρ : Type} (x : Act σ ε α) : Act (σ × ρ) ε α := zoom Prod.fst (fun s t => (t, s.2)) x

/-- A result that does not depend on the state. -/
def lift (r : Except ε α) : Act σ ε α := fun s => (r, s)

/-- Reading the state. -/
def read (f : σ → α) : Act σ ε α := fun s => (.ok (f s), s)

/-- Changing the state. -/
def modify (f : σ → σ) : Act σ ε Unit := fun s => (.ok (), f s)

theorem bind_run (x : Act σ ε α) (f : α → Act σ ε β) (s : σ) :
    (x >>= f) s = match x s with
      | (.ok a, s') => f a s'
      | (.error e, s') => (.error e, s') := rfl

@[simp] theorem lift_ok_bind (a : α) (f : α → Act σ ε β) : (lift (.ok a) >>= f) = f a := rfl

@[simp] theorem lift_error_bind (e : ε) (f : α → Act σ ε β) : (lift (.error e) >>= f) = throw e := rfl

@[simp] theorem modify_bind_run (f : σ → σ) (g : Unit → Act σ ε β) (s : σ) : (modify f >>= g) s = g () (f s) := rfl

@[simp] theorem throw_run (e : ε) (s : σ) : (throw e : Act σ ε α) s = (.error e, s) := rfl

theorem bind_of_ok {x : Act σ ε α} {f : α → Act σ ε β} {s s₁ : σ} {a : α} (h : x s = (.ok a, s₁)) :
    (x >>= f) s = f a s₁ := by
  rw [bind_run, h]

/-- A run that returned, with the state it left. -/
theorem run_of_ok {x : Act σ ε α} {s : σ} {a : α} (h : (x s).1 = .ok a) : x s = (.ok a, (x s).2) := Prod.ext h rfl

/-- A run through a bind that returned. -/
theorem bind_eq_ok {x : Act σ ε α} {f : α → Act σ ε β} {s s' : σ} {b : β} :
    (x >>= f) s = (.ok b, s') ↔ ∃ a s₁, x s = (.ok a, s₁) ∧ f a s₁ = (.ok b, s') := by
  rw [bind_run]
  cases x s with
  | mk r s₁ => cases r <;> simp

/-- A run on a part of the state that returned. -/
theorem zoom_eq_ok {τ : Type} {get : σ → τ} {set : σ → τ → σ} {x : Act τ ε α} {s s' : σ} {a : α} :
    zoom get set x s = (.ok a, s') ↔ ∃ t, x (get s) = (.ok a, t) ∧ s' = set s t := by
  unfold zoom
  cases x (get s) with
  | mk r t => simp [eq_comm]

theorem mapErr_eq_ok {f : ε → δ} {x : Act σ ε α} {s s' : σ} {a : α} :
    mapErr f x s = (.ok a, s') ↔ x s = (.ok a, s') := by
  unfold mapErr
  cases x s with
  | mk r s₁ => cases r <;> simp

theorem lift_eq_ok {r : Except ε α} {s s' : σ} {a : α} : lift r s = (.ok a, s') ↔ r = .ok a ∧ s' = s := by
  simp [lift, eq_comm]

/-- What must hold before `x` for its outcomes to satisfy `Q` and `E`. -/
def wp (x : Act σ ε α) (Q : α → σ → Prop) (E : ε → σ → Prop) (s : σ) : Prop :=
  match x s with
  | (.ok a, s') => Q a s'
  | (.error e, s') => E e s'

variable {Q : α → σ → Prop} {E : ε → σ → Prop} {s : σ}

@[simp] theorem wp_pure (a : α) : wp (pure a) Q E s ↔ Q a s := Iff.rfl

@[simp] theorem wp_throw (e : ε) : wp (throw e : Act σ ε α) Q E s ↔ E e s := Iff.rfl

@[simp] theorem wp_read {γ : Type} (f : σ → γ) {Q : γ → σ → Prop} :
    wp (read f : Act σ ε γ) Q E s ↔ Q (f s) s := Iff.rfl

@[simp] theorem wp_lift_ok (a : α) : wp (lift (.ok a) : Act σ ε α) Q E s ↔ Q a s := Iff.rfl

@[simp] theorem wp_lift_error (e : ε) : wp (lift (.error e) : Act σ ε α) Q E s ↔ E e s := Iff.rfl

theorem wp_lift (r : Except ε α) :
    wp (lift r) Q E s ↔ (∀ a, r = .ok a → Q a s) ∧ ∀ e, r = .error e → E e s := by
  cases r <;> simp [wp, lift]

@[simp] theorem wp_bind (x : Act σ ε α) (f : α → Act σ ε β) {Q : β → σ → Prop} :
    wp (x >>= f) Q E s ↔ wp x (fun a => wp (f a) Q E) E s := by
  unfold wp
  rw [bind_run]
  cases h : x s with
  | mk r s' => cases r <;> rfl

@[simp] theorem wp_mapErr (f : ε → δ) (x : Act σ ε α) {E : δ → σ → Prop} :
    wp (mapErr f x) Q E s ↔ wp x Q (fun e => E (f e)) s := by
  unfold wp mapErr
  cases h : x s with
  | mk r s' => cases r <;> rfl

@[simp] theorem wp_tryCatch (x : Act σ ε α) (h : ε → Act σ δ α) {E : δ → σ → Prop} :
    wp (tryCatch x h) Q E s ↔ wp x Q (fun e => wp (h e) Q E) s := by
  unfold wp tryCatch
  cases x s with
  | mk r s' => cases r <;> rfl

@[simp] theorem wp_zoom {τ : Type} (get : σ → τ) (set : σ → τ → σ) (x : Act τ ε α) :
    wp (zoom get set x) Q E s ↔ wp x (fun a t => Q a (set s t)) (fun e t => E e (set s t)) (get s) := by
  unfold wp zoom
  cases x (get s) with
  | mk r t => cases r <;> rfl

@[simp] theorem wp_onFst {ρ : Type} (x : Act σ ε α) {Q : α → σ × ρ → Prop} {E : ε → σ × ρ → Prop} {s : σ × ρ} :
    wp (onFst x) Q E s ↔ wp x (fun a t => Q a (t, s.2)) (fun e t => E e (t, s.2)) s.1 := wp_zoom _ _ x

@[simp] theorem wp_ite {c : Prop} [Decidable c] (x y : Act σ ε α) :
    wp (if c then x else y) Q E s ↔ if c then wp x Q E s else wp y Q E s := by
  split <;> rfl

/-- Weaker outcomes. -/
theorem wp_mono {x : Act σ ε α} {Q' : α → σ → Prop} {E' : ε → σ → Prop} (h : wp x Q E s)
    (hQ : ∀ a s', Q a s' → Q' a s') (hE : ∀ e s', E e s' → E' e s') : wp x Q' E' s := by
  unfold wp at *
  cases hx : x s with
  | mk r s' =>
    rw [hx] at h
    cases r with
    | ok a => exact hQ a s' h
    | error e => exact hE e s' h

/-- Both outcomes at once. -/
theorem wp_and {x : Act σ ε α} {Q' : α → σ → Prop} {E' : ε → σ → Prop} (h : wp x Q E s) (h' : wp x Q' E' s) :
    wp x (fun a s' => Q a s' ∧ Q' a s') (fun e s' => E e s' ∧ E' e s') s := by
  unfold wp at *
  cases hx : x s with
  | mk r s' =>
    rw [hx] at h h'
    cases r <;> exact ⟨h, h'⟩

/-- What a run shows when `wp` holds before it. -/
theorem of_wp {x : Act σ ε α} {s' : σ} (h : wp x Q E s) :
    (∀ a, x s = (.ok a, s') → Q a s') ∧ ∀ e, x s = (.error e, s') → E e s' := by
  unfold wp at h
  constructor
  · intro a hx; rw [hx] at h; exact h
  · intro e hx; rw [hx] at h; exact h

/-- A property of the state that both outcomes have. -/
theorem snd_of_wp {x : Act σ ε α} {R : σ → Prop} (h : wp x (fun _ => R) (fun _ => R) s) : R (x s).2 := by
  unfold wp at h
  cases hx : x s with
  | mk r s' =>
    rw [hx] at h
    cases r <;> exact h

/-- An action that cannot fail from `s` returns. -/
theorem exists_ok {x : Act σ ε α} (h : wp x Q (fun _ _ => False) s) : ∃ a s', x s = (.ok a, s') ∧ Q a s' := by
  unfold wp at h
  cases hx : x s with
  | mk r s' =>
    rw [hx] at h
    cases r with
    | ok a => exact ⟨a, s', rfl, h⟩
    | error e => exact h.elim

/-! ## Comparing actions -/

/-- Whatever `x` returns `y` returns, in the same state. -/
def Below (x y : Act σ ε α) : Prop := ∀ s a s', x s = (.ok a, s') → y s = (.ok a, s')

/-- `x` and `y` return the same values and leave the same state, also when they fail; only their errors may differ. -/
def Alike (x y : Act σ ε α) : Prop := ∀ s, (x s).2 = (y s).2 ∧ ∀ a, (x s).1 = .ok a ↔ (y s).1 = .ok a

theorem Below.refl (x : Act σ ε α) : Below x x := fun _ _ _ h => h

theorem Below.lift {r r' : Except ε α} (h : ∀ a, r = .ok a → r' = .ok a) :
    Below (lift r : Act σ ε α) (Act.lift r') := by
  intro s a s' hrun
  obtain ⟨hr, hs⟩ := lift_eq_ok.1 hrun
  exact lift_eq_ok.2 ⟨h a hr, hs⟩

theorem Below.bind {x y : Act σ ε α} {f g : α → Act σ ε β} (h : Below x y) (hf : ∀ a, Below (f a) (g a)) :
    Below (x >>= f) (y >>= g) := by
  intro s b s' hb
  obtain ⟨a, s₁, hx, hb⟩ := bind_eq_ok.1 hb
  exact bind_eq_ok.2 ⟨a, s₁, h s a s₁ hx, hf a s₁ b s' hb⟩

theorem Below.zoom {τ : Type} {x y : Act τ ε α} (h : Below x y) (get : σ → τ) (set : σ → τ → σ) :
    Below (zoom get set x) (zoom get set y) := by
  intro s a s' hrun
  obtain ⟨t, hx, rfl⟩ := zoom_eq_ok.1 hrun
  exact zoom_eq_ok.2 ⟨t, h _ a t hx, rfl⟩

theorem Alike.refl (x : Act σ ε α) : Alike x x := fun _ => ⟨rfl, fun _ => Iff.rfl⟩

theorem Alike.zoom {τ : Type} {x y : Act τ ε α} (h : Alike x y) (get : σ → τ) (set : σ → τ → σ) :
    Alike (zoom get set x) (zoom get set y) := fun s => ⟨congrArg (set s) (h (get s)).1, (h (get s)).2⟩

theorem Alike.lift {r r' : Except ε α} (h : ∀ a, r = .ok a ↔ r' = .ok a) : Alike (lift r : Act σ ε α) (Act.lift r') :=
  fun _ => ⟨rfl, h⟩

theorem Alike.bind {x y : Act σ ε α} {f g : α → Act σ ε β} (h : Alike x y) (hf : ∀ a, Alike (f a) (g a)) :
    Alike (x >>= f) (y >>= g) := by
  intro s
  obtain ⟨hs, ha⟩ := h s
  rw [bind_run, bind_run]
  cases hx : x s with
  | mk r s' =>
    cases hy : y s with
    | mk r' s'' =>
      rw [hx, hy] at hs ha
      obtain rfl : s' = s'' := hs
      cases r with
      | ok a =>
        obtain rfl : r' = .ok a := (ha a).1 rfl
        exact hf a s'
      | error e =>
        cases r' with
        | ok a => exact absurd ((ha a).2 rfl) (by simp)
        | error e' => exact ⟨rfl, fun b => by simp⟩

/-! ## Properties that nothing destroys -/

/-- `P` holds after every outcome if it held before. -/
def Keeps (P : σ → Prop) (x : Act σ ε α) : Prop := ∀ s, P s → wp x (fun _ => P) (fun _ => P) s

variable {P : σ → Prop}

theorem keeps_pure (a : α) : Keeps P (pure a : Act σ ε α) := fun _ h => h

theorem keeps_throw (e : ε) : Keeps P (throw e : Act σ ε α) := fun _ h => h

theorem keeps_lift (r : Except ε α) : Keeps P (lift r : Act σ ε α) := by
  intro s h; cases r <;> exact h

theorem keeps_modify {f : σ → σ} (hf : ∀ s, P s → P (f s)) : Keeps P (modify f : Act σ ε Unit) := hf

theorem keeps_of_snd {x : Act σ ε α} (h : ∀ s, P s → P (x s).2) : Keeps P x := by
  intro s hs
  have h := h s hs
  unfold wp
  cases hx : x s with
  | mk r s' =>
    rw [hx] at h
    cases r <;> exact h

theorem keeps_bind {x : Act σ ε α} {f : α → Act σ ε β} (hx : Keeps P x) (hf : ∀ a, Keeps P (f a)) :
    Keeps P (x >>= f) := by
  intro s h
  rw [wp_bind]
  exact wp_mono (hx s h) (fun a s' h' => hf a s' h') (fun _ _ h' => h')

theorem keeps_mapErr {f : ε → δ} {x : Act σ ε α} (hx : Keeps P x) : Keeps P (mapErr f x) := by
  intro s h
  rw [wp_mapErr]
  exact hx s h

end Act
