import Mathlib.Data.Nat.Bitwise

/-!
# Permission bits

A mode has twelve bits: nine for reading, writing and executing, the set-user-ID bit `0o4000`, the set-group-ID bit
`0o2000` and the sticky bit `0o1000`. Who may not control set-ID bits loses some of them when a mode is set (`granted`)
and when the file is written after that (`written`).

* `KeepsMode.iff`: when the mode that is asked for is the mode that is left.
-/

namespace Posix

/-- Who makes the calls: the mask of what it makes, whether it controls set-ID bits (`CAP_FSETID`), and whether it is in
the group of the files it makes. -/
structure Process where
  umask : Nat
  fsetid : Bool
  member : Bool
  deriving DecidableEq

/-- Permission bits of a new node. -/
def masked (mode umask : Nat) : Nat := mode &&& (0o7777 ^^^ (umask &&& 0o7777))

namespace Process

/-- The permission bits that setting `mode` gives: of a foreign group no file is given the set-group-ID bit. -/
def granted (p : Process) (mode : Nat) : Nat :=
  if p.fsetid = true ∨ p.member = true then mode % 0o10000 else mode % 0o10000 &&& 0o5777

/-- The permission bits that a write or a truncation leaves: it takes the set-user-ID bit, and the set-group-ID bit of
what the group may execute and of a foreign group. -/
def written (p : Process) (mode : Nat) : Nat :=
  if p.fsetid = true then mode
  else if mode &&& 0o10 ≠ 0 ∨ p.member = false then mode &&& 0o1777 else mode &&& 0o3777

/-- Setting `mode`, and writing the file after that if something was held back, takes no bit of it. -/
def KeepsMode (p : Process) (held : Bool) (mode : Nat) : Prop :=
  p.fsetid = true ∨
    (mode &&& 0o2000 = 0 ∨ p.member = true ∧ (held = false ∨ mode &&& 0o10 = 0)) ∧ (held = false ∨ mode &&& 0o4000 = 0)

instance (p : Process) (held : Bool) (mode : Nat) : Decidable (p.KeepsMode held mode) :=
  inferInstanceAs (Decidable (_ ∨ _))

end Process

/-! ## Masks -/

theorem masked_and_setgid (u : Nat) : masked 0o777 u &&& 0o2000 = 0 := by
  unfold masked
  rw [Nat.and_comm, ← Nat.and_assoc]
  exact Nat.zero_and _

/-- A mask takes nothing of a mode exactly when the mode has none of the bits that the mask lacks. -/
theorem and_eq_self_iff {m c b : Nat} (hm : m < 0o10000) (hor : c ||| b = 0o7777) (hand : c &&& b = 0) :
    m &&& c = m ↔ m &&& b = 0 := by
  have hall : m &&& 0o7777 = m := by
    rw [show 0o7777 = 2 ^ 12 - 1 by decide, Nat.and_two_pow_sub_one_eq_mod, Nat.mod_eq_of_lt hm]
  constructor
  · intro h
    rw [← h, Nat.and_assoc, hand, Nat.and_zero]
  · intro h
    conv_rhs => rw [← hall, ← hor, Nat.and_or_distrib_left, h, Nat.or_zero]

/-- The permission bits of a mode are its own. -/
theorem mod_and {mode b : Nat} (hb : 0o7777 &&& b = b) : mode % 0o10000 &&& b = mode &&& b := by
  rw [show 0o10000 = 2 ^ 12 by decide, ← Nat.and_two_pow_sub_one_eq_mod, Nat.and_assoc]
  exact congrArg (mode &&& ·) hb

/-- Both set-ID bits are gone exactly when each is. -/
theorem and_setIds (m : Nat) : m &&& 0o6000 = 0 ↔ m &&& 0o2000 = 0 ∧ m &&& 0o4000 = 0 := by
  have hboth : m &&& 0o6000 = (m &&& 0o2000) ||| (m &&& 0o4000) := by
    rw [← Nat.and_or_distrib_left]
    rfl
  rw [hboth, Nat.or_eq_zero_iff]

namespace Process

variable {p : Process} {m mode : Nat} {held : Bool}

theorem granted_le : p.granted mode ≤ mode % 0o10000 := by
  unfold granted
  split
  · exact Nat.le_refl _
  · exact Nat.and_le_left

theorem written_le : p.written m ≤ m := by
  unfold written
  split
  · exact Nat.le_refl _
  · split <;> exact Nat.and_le_left

theorem granted_eq_iff : p.granted mode = mode % 0o10000 ↔ p.fsetid = true ∨ p.member = true ∨ mode &&& 0o2000 = 0 := by
  unfold granted
  split
  · rename_i h
    exact ⟨fun _ => h.imp_right .inl, fun _ => rfl⟩
  · rename_i h
    rw [and_eq_self_iff (Nat.mod_lt _ (by decide)) (show 0o5777 ||| 0o2000 = 0o7777 by decide) (by decide),
      mod_and (by decide)]
    exact ⟨fun h => .inr (.inr h), fun hbit => (or_assoc.2 hbit).resolve_left h⟩

theorem written_eq_iff (hm : m < 0o10000) : p.written m = m ↔
    p.fsetid = true ∨ (m &&& 0o2000 = 0 ∨ p.member = true ∧ m &&& 0o10 = 0) ∧ m &&& 0o4000 = 0 := by
  unfold written
  split
  · rename_i hset
    exact ⟨fun _ => .inl hset, fun _ => rfl⟩
  · rename_i hset
    split
    · rename_i hkill
      have hnot : ¬(p.member = true ∧ m &&& 0o10 = 0) := fun ⟨hmember, hexec⟩ =>
        hkill.elim (fun h => h hexec) fun h => by rw [hmember] at h; cases h
      rw [and_eq_self_iff hm (show 0o1777 ||| 0o6000 = 0o7777 by decide) (by decide), and_setIds]
      simp only [hset, hnot, Bool.false_eq_true, false_or, or_false]
    · rename_i hkeep
      obtain ⟨hexec, hmember⟩ := not_or.1 hkeep
      have hexec : m &&& 0o10 = 0 := not_not.1 hexec
      have hmember : p.member = true := by simpa using hmember
      rw [and_eq_self_iff hm (show 0o3777 ||| 0o4000 = 0o7777 by decide) (by decide)]
      simp only [hset, hexec, hmember, Bool.false_eq_true, and_self, or_true, true_and, false_or]

/-- **When a mode survives**: who controls set-ID bits keeps it, and the others keep what neither the setting nor a
write after it takes. -/
theorem KeepsMode.iff : (if held then p.written (p.granted mode) else p.granted mode) = mode % 0o10000 ↔
    p.KeepsMode held mode := by
  unfold KeepsMode
  cases held with
  | false =>
    rw [if_neg (by decide), granted_eq_iff]
    simp only [true_or, and_true, or_comm]
  | true =>
    rw [if_pos rfl]
    have hsplit : p.written (p.granted mode) = mode % 0o10000 ↔
        p.granted mode = mode % 0o10000 ∧ p.written (mode % 0o10000) = mode % 0o10000 := by
      constructor
      · intro h
        have hgranted := Nat.le_antisymm granted_le (h ▸ written_le)
        exact ⟨hgranted, hgranted ▸ h⟩
      · rintro ⟨hgranted, hwritten⟩
        rw [hgranted, hwritten]
    rw [hsplit, granted_eq_iff, written_eq_iff (Nat.mod_lt _ (by decide)), mod_and (by decide), mod_and (by decide),
      mod_and (by decide)]
    constructor
    · rintro ⟨_, hset | hbits⟩
      · exact .inl hset
      · exact .inr (by simpa using hbits)
    · rintro (hset | ⟨hgroup, huser⟩)
      · exact ⟨.inl hset, .inl hset⟩
      · have hgroup : mode &&& 0o2000 = 0 ∨ p.member = true ∧ mode &&& 0o10 = 0 := by simpa using hgroup
        have huser : mode &&& 0o4000 = 0 := by simpa using huser
        exact ⟨.inr (hgroup.elim .inr fun h => .inl h.1), .inr ⟨hgroup, huser⟩⟩

/-- A mode without set-ID bits survives. -/
theorem KeepsMode.plain (h : mode &&& 0o6000 = 0) : p.KeepsMode held mode := by
  obtain ⟨hgroup, huser⟩ := (and_setIds mode).1 h
  exact .inr ⟨.inl hgroup, .inr huser⟩

end Process
end Posix
