import Mathlib.Algebra.BigOperators.Group.List.Basic
import Mathlib.Algebra.Order.Ring.Nat
import Mathlib.Data.List.Nodup
import Mathlib.Data.List.Perm.Basic

/-!
# What the members of a row hold

Every member of a row holds a few things; `row.flatMap f` is what they hold together. Where one member is put in the
place of another, the row holds what the new one holds instead of what the old one held (`flatMap_set`), and a sum over
the row changes by the two (`sum_set`).
-/

namespace Gather

open List

variable {α β : Type} {f : α → List β} {row : List α} {i : Nat} {a : α}

/-- **One member changes**: what the old one held goes, what the new one holds comes. -/
theorem flatMap_set (f : α → List β) (h : row[i]? = some a) (b : α) :
    f a ++ (row.set i b).flatMap f ~ f b ++ row.flatMap f := by
  obtain ⟨hi, rfl⟩ := List.getElem?_eq_some_iff.1 h
  have hold : row.flatMap f ~ f row[i] ++ (row.eraseIdx i).flatMap f :=
    (List.getElem_cons_eraseIdx_perm hi).symm.flatMap_right f
  have hnew : (row.set i b).flatMap f ~ f b ++ (row.eraseIdx i).flatMap f :=
    (List.set_perm_cons_eraseIdx hi b).flatMap_right f
  calc f row[i] ++ (row.set i b).flatMap f
      ~ f row[i] ++ (f b ++ (row.eraseIdx i).flatMap f) := hnew.append_left _
    _ ~ f b ++ (f row[i] ++ (row.eraseIdx i).flatMap f) := by
        rw [← List.append_assoc, ← List.append_assoc]
        exact List.perm_append_comm.append_right _
    _ ~ f b ++ row.flatMap f := hold.symm.append_left _

/-- A member that holds the same changes nothing. -/
theorem flatMap_set_of_eq (h : row[i]? = some a) {b : α} (hf : f b = f a) : (row.set i b).flatMap f ~ row.flatMap f := by
  have hset := flatMap_set f h b
  rw [hf] at hset
  exact (List.perm_append_left_iff _).1 hset

/-- A member gets its only thing. -/
theorem flatMap_set_gain (h : row[i]? = some a) (ha : f a = []) {b : α} {x : β} (hb : f b = [x]) :
    (row.set i b).flatMap f ~ x :: row.flatMap f := by
  have hset := flatMap_set f h b
  rwa [ha, hb] at hset

/-- A member gives its only thing away. -/
theorem flatMap_set_lose (h : row[i]? = some a) {x : β} (ha : f a = [x]) {b : α} (hb : f b = []) :
    x :: (row.set i b).flatMap f ~ row.flatMap f := by
  have hset := flatMap_set f h b
  rwa [ha, hb] at hset

theorem sum_set (g : α → Nat) (h : row[i]? = some a) (b : α) :
    g a + ((row.set i b).map g).sum = g b + (row.map g).sum := by
  obtain ⟨hi, rfl⟩ := List.getElem?_eq_some_iff.1 h
  have hold : (row.map g).sum = g row[i] + ((row.eraseIdx i).map g).sum :=
    ((List.getElem_cons_eraseIdx_perm hi).symm.map g).sum_eq
  have hnew : ((row.set i b).map g).sum = g b + ((row.eraseIdx i).map g).sum :=
    ((List.set_perm_cons_eraseIdx hi b).map g).sum_eq
  omega

/-- What is held once has one holder. -/
theorem index_unique (h : (row.flatMap f).Nodup) {j : Nat} {b : α} {x : β} (hi : row[i]? = some a) (hj : row[j]? = some b)
    (ha : x ∈ f a) (hb : x ∈ f b) : i = j := by
  obtain ⟨hilt, rfl⟩ := List.getElem?_eq_some_iff.1 hi
  obtain ⟨hjlt, rfl⟩ := List.getElem?_eq_some_iff.1 hj
  have hpairs := List.pairwise_iff_getElem.1 (List.nodup_flatMap.1 h).2
  rcases Nat.lt_trichotomy i j with hlt | heq | hlt
  · exact absurd hb (hpairs i j hilt hjlt hlt ha)
  · exact heq
  · exact absurd ha (hpairs j i hjlt hilt hlt hb)

end Gather
