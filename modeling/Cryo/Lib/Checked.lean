import Mathlib.Algebra.Order.BigOperators.Group.List
import Mathlib.Algebra.Order.Ring.Nat

/-!
# Checked arithmetic

64-bit integers as numbers: `u64` as natural numbers below `2 ^ 64`, `i64` as integers from `-2 ^ 63` on. Each operation
reports an overflow instead of a number that does not fit. Beside each stands when it returns (`addU_of_lt`, `subI_of`)
and, where that is used, when it does not; a sum of few small numbers returns (`sumU_of_lt`, `sum_lt_of_forall_lt`).
-/

namespace Checked

inductive Overflow where
  | add
  | sub
  | mul
  deriving DecidableEq

/-- `a + b` of `u64`. -/
def addU (a b : Nat) : Except Overflow Nat := if a + b < 2 ^ 64 then .ok (a + b) else .error .add

/-- `a - b` of `u64`. -/
def subU (a b : Nat) : Except Overflow Nat := if b ≤ a then .ok (a - b) else .error .sub

/-- `r` as an `i64`. -/
def i64 (op : Overflow) (r : Int) : Except Overflow Int := if -2 ^ 63 ≤ r ∧ r < 2 ^ 63 then .ok r else .error op

def addI (a b : Int) : Except Overflow Int := i64 .add (a + b)
def subI (a b : Int) : Except Overflow Int := i64 .sub (a - b)
def mulI (a b : Int) : Except Overflow Int := i64 .mul (a * b)

/-- `saturating_add` and `saturating_mul` of `u64`. -/
def saturatingAdd (a b : Nat) : Nat := min (a + b) (2 ^ 64 - 1)
def saturatingMul (a b : Nat) : Nat := min (a * b) (2 ^ 64 - 1)

/-- The sum of `u64`, from the left. -/
def sumU (l : List Nat) : Except Overflow Nat := l.foldlM addU 0

section

variable {a b : Nat} {x y : Int} {op : Overflow}

theorem addU_of_lt (h : a + b < 2 ^ 64) : addU a b = .ok (a + b) := if_pos h

theorem addU_of_le (h : 2 ^ 64 ≤ a + b) : addU a b = .error .add := if_neg (Nat.not_lt.2 h)

theorem subU_of_le (h : b ≤ a) : subU a b = .ok (a - b) := if_pos h

theorem i64_of (h : -2 ^ 63 ≤ x ∧ x < 2 ^ 63) : i64 op x = .ok x := if_pos h

/-! Small results fit. -/

theorem addI_of (h : -2 ^ 63 ≤ x + y ∧ x + y < 2 ^ 63) : addI x y = .ok (x + y) := i64_of h
theorem subI_of (h : -2 ^ 63 ≤ x - y ∧ x - y < 2 ^ 63) : subI x y = .ok (x - y) := i64_of h
theorem mulI_of (h : -2 ^ 63 ≤ x * y ∧ x * y < 2 ^ 63) : mulI x y = .ok (x * y) := i64_of h

theorem i64_error (h : ¬ (-2 ^ 63 ≤ x ∧ x < 2 ^ 63)) : i64 op x = .error op := if_neg h

/-- A choice between two results. -/
theorem ite_ok {α : Type} {c : Prop} [Decidable c] (u v : α) :
    (if c then .ok u else .ok v : Except Overflow α) = .ok (if c then u else v) := (apply_ite Except.ok c u v).symm

theorem le_saturatingAdd (h : a < 2 ^ 64) : a ≤ saturatingAdd a b := by
  unfold saturatingAdd
  omega

/-- **A sum fits** when the exact sum does: the partial sums are no larger. -/
theorem foldlM_addU : ∀ {l : List Nat} {t : Nat}, t + l.sum < 2 ^ 64 → l.foldlM addU t = .ok (t + l.sum)
  | [], t, _ => by simp [pure, Except.pure]
  | a :: l, t, h => by
    rw [List.sum_cons, ← Nat.add_assoc] at h ⊢
    have hhead : addU t a = .ok (t + a) := addU_of_lt (by omega)
    rw [List.foldlM_cons, hhead]
    exact foldlM_addU h

theorem sumU_of_lt {l : List Nat} (h : l.sum < 2 ^ 64) : sumU l = .ok l.sum := by
  have := foldlM_addU (t := 0) (l := l) (by omega)
  rwa [Nat.zero_add] at this

/-- The sum of few numbers below a bound. -/
theorem sum_lt_of_forall_lt {n m : Nat} {l : List Nat} (hlen : l.length < n) (hm : 0 < m) (h : ∀ a ∈ l, a < m) :
    l.sum < n * m := by
  have hle : l.sum ≤ l.length * m := by
    have := List.sum_le_card_nsmul l m fun a ha => (h a ha).le
    simpa using this
  exact hle.trans_lt (Nat.mul_lt_mul_of_pos_right hlen hm)

end

end Checked
