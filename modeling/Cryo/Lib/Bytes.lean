import Mathlib.Data.List.Basic
import Mathlib.Tactic.Ring

/-!
# Byte strings: slices, overwriting, little-endian numbers

A file is a list of bytes. `slice off len l` is the window a positioned read returns (`readAt`), `overwrite pos d l`
the effect of writing `d` at `pos`, `setLen n l` that of truncating or extending. Writing piece after piece is one
write of the concatenation (`overwrite_overwrite`), and a write up to the end followed by `setLen` forgets whatever
stood behind (`setLen_overwrite`).

`leBytes w n` are the `w` little-endian bytes of `n`; `leVal` reads them back (`leVal_leBytes`).
-/

abbrev Bytes := List UInt8

namespace Bytes

variable {α : Type}

/-! ## Slices -/

/-- The window of `len` elements from `off`. -/
def slice (off len : Nat) (l : List α) : List α := (l.drop off).take len

theorem length_slice (off len : Nat) (l : List α) : (slice off len l).length = min len (l.length - off) := by
  simp [slice]

theorem length_slice_of_le {off len : Nat} {l : List α} (h : off + len ≤ l.length) :
    (slice off len l).length = len := by
  rw [length_slice]; omega

@[simp] theorem slice_zero_len (off : Nat) (l : List α) : slice off 0 l = [] := by simp [slice]

/-- The middle of three pieces. -/
theorem slice_mid (a b c : List α) : slice a.length b.length (a ++ b ++ c) = b := by
  simp [slice]

theorem slice_mid_of_eq {off len : Nat} {a b c : List α} (ho : off = a.length) (hl : len = b.length) :
    slice off len (a ++ b ++ c) = b := by
  subst ho hl; exact slice_mid a b c

/-- Exactly the middle of three pieces. -/
theorem slice_eq_mid_iff {off n : Nat} {a d b : List α} (ho : off = a.length) :
    (off + n ≤ (a ++ d ++ b).length ∧ slice off n (a ++ d ++ b) = d) ↔ d.length = n := by
  constructor
  · rintro ⟨hin, hd⟩
    rw [← length_slice_of_le hin, hd]
  · intro hn
    exact ⟨by simp only [List.length_append]; omega, slice_mid_of_eq ho hn.symm⟩

/-- A window inside the first part does not see the second. -/
theorem slice_append_left {off len : Nat} {l : List α} (h : off + len ≤ l.length) (m : List α) :
    slice off len (l ++ m) = slice off len l := by
  unfold slice
  rw [List.drop_append_of_le_length (by omega), List.take_append_of_le_length (by simp; omega)]

/-- A window over a cut is the two windows. -/
theorem slice_append (off len : Nat) (l m : List α) :
    slice off len (l ++ m) = slice off len l ++ slice (off - l.length) (len - (l.length - off)) m := by
  simp [slice, List.drop_append, List.take_append]

theorem slice_eq_nil {off len : Nat} {l : List α} (h : l.length ≤ off) : slice off len l = [] := by
  simp [slice, List.drop_eq_nil_of_le h]

/-! ## Writing at a position -/

/-- Writing `d` at position `pos`. -/
def overwrite (pos : Nat) (d l : List α) : List α := l.take pos ++ d ++ l.drop (pos + d.length)

@[simp] theorem overwrite_nil (pos : Nat) (l : List α) : overwrite pos [] l = l := by simp [overwrite]

theorem overwrite_end (d l : List α) : overwrite l.length d l = l ++ d := by
  simp [overwrite]

/-- Writing over the middle of three pieces. -/
theorem overwrite_mid {a b c d : List α} (h : d.length = b.length) :
    overwrite a.length d (a ++ b ++ c) = a ++ d ++ c := by
  have htail : (a ++ b ++ c).drop (a.length + d.length) = c := by
    rw [h, ← List.length_append, List.drop_left]
  unfold overwrite
  rw [htail, List.append_assoc a b, List.take_left]

/-- Adjacent writes are one write. -/
theorem overwrite_overwrite {pos : Nat} {l : List α} (h : pos ≤ l.length) (d e : List α) :
    overwrite (pos + d.length) e (overwrite pos d l) = overwrite pos (d ++ e) l := by
  have hlen : (l.take pos ++ d).length = pos + d.length := by simp; omega
  have htail : (l.take pos ++ d ++ l.drop (pos + d.length)).drop (pos + d.length + e.length)
      = l.drop (pos + (d ++ e).length) := by
    rw [← hlen, ← List.drop_drop, List.drop_left, hlen, List.drop_drop, List.length_append, Nat.add_assoc]
  unfold overwrite
  rw [htail, List.take_left' hlen]
  simp only [List.append_assoc]

theorem length_overwrite_ge (pos : Nat) (d l : List α) (h : pos ≤ l.length) :
    pos + d.length ≤ (overwrite pos d l).length := by
  simp [overwrite]; omega

/-- Everything before the position stays. -/
theorem take_overwrite {pos : Nat} {l : List α} (h : pos ≤ l.length) (d : List α) :
    (overwrite pos d l).take pos = l.take pos := by
  unfold overwrite
  rw [List.append_assoc, List.take_left' (by simp [h])]

theorem take_overwrite_le {k pos : Nat} {l : List α} (hk : k ≤ pos) (h : pos ≤ l.length) (d : List α) :
    (overwrite pos d l).take k = l.take k := by
  rw [← Nat.min_eq_left hk, ← List.take_take, take_overwrite h, List.take_take]

/-- What stands before the end of a write. -/
theorem take_overwrite_end {pos : Nat} {l : List α} (h : pos ≤ l.length) (d : List α) :
    (overwrite pos d l).take (pos + d.length) = l.take pos ++ d := by
  unfold overwrite
  exact List.take_left' (by simp [h])

/-- Truncating, or extending with zeros. -/
def setLen (n : Nat) (l : Bytes) : Bytes := l.take n ++ List.replicate (n - l.length) 0

@[simp] theorem length_setLen (n : Nat) (l : Bytes) : (setLen n l).length = n := by
  simp [setLen]; omega

/-- What stands before the new end. -/
theorem take_setLen {k n : Nat} {l : Bytes} (hn : k ≤ n) (hl : k ≤ l.length) : (setLen n l).take k = l.take k := by
  unfold setLen
  rw [List.take_append_of_le_length (by simp; omega), List.take_take, Nat.min_eq_left hn]

/-- A write followed by a truncation to its end. -/
theorem setLen_overwrite {pos : Nat} {l : Bytes} (h : pos ≤ l.length) (d : Bytes) :
    setLen (pos + d.length) (overwrite pos d l) = l.take pos ++ d := by
  have hlen : (l.take pos ++ d).length = pos + d.length := by simp; omega
  have hge := length_overwrite_ge pos d l h
  unfold setLen
  rw [Nat.sub_eq_zero_of_le hge, List.replicate_zero, List.append_nil]
  exact List.take_left' hlen

/-! ## Little-endian numbers -/

/-- The `w` little-endian bytes of `n`. -/
def leBytes : (w n : Nat) → Bytes
  | 0, _ => []
  | w + 1, n => UInt8.ofNat n :: leBytes w (n / 256)

/-- The number a little-endian byte string stands for. -/
def leVal : Bytes → Nat
  | [] => 0
  | b :: bs => b.toNat + 256 * leVal bs

@[simp] theorem length_leBytes : ∀ w n : Nat, (leBytes w n).length = w
  | 0, _ => rfl
  | w + 1, n => by simp [leBytes, length_leBytes w]

/-- Reading back what was written. -/
theorem leVal_leBytes : ∀ {w n : Nat}, n < 256 ^ w → leVal (leBytes w n) = n
  | 0, n, h => by
    have : n = 0 := by simpa using h
    simp [leBytes, leVal, this]
  | w + 1, n, h => by
    have hq : n / 256 < 256 ^ w := by
      rw [Nat.div_lt_iff_lt_mul (by decide)]
      simpa [Nat.pow_succ] using h
    simp only [leBytes, leVal, leVal_leBytes hq, UInt8.toNat_ofNat']
    omega

/-- Bytes that do not fit are left out. -/
theorem leBytes_mod : ∀ w n : Nat, leBytes w (n % 256 ^ w) = leBytes w n
  | 0, _ => rfl
  | w + 1, n => by
    have hlow : UInt8.ofNat (n % 256 ^ (w + 1)) = UInt8.ofNat n := by
      apply UInt8.toNat_inj.1
      rw [UInt8.toNat_ofNat', UInt8.toNat_ofNat', Nat.pow_succ', Nat.mod_mul_right_mod]
    have hhigh : n % 256 ^ (w + 1) / 256 = n / 256 % 256 ^ w := by
      rw [Nat.pow_succ', Nat.mod_mul_right_div_self]
    rw [leBytes, leBytes, hlow, hhigh, leBytes_mod w]

end Bytes
