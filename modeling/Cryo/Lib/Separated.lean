import Mathlib.Algebra.Order.Ring.Nat
import Mathlib.Data.List.Basic

/-!
# Texts that are separated by a character

A text can be cut at the first or at the last of its separators. Splitting a text takes joined parts apart again when no
part has a separator, and how often the separator occurs tells into how many parts the text falls.
-/

namespace Separated

variable {α : Type} {c : α}

/-! ## Cutting -/

/-- What goes up to one separator does not go up to another one that comes no later. -/
theorem cut_ne {d : α} (hcd : c ≠ d) {a b s t : List α} (hc : c ∉ b) (hd : d ∉ a) : a ++ c :: s ≠ b ++ d :: t := by
  intro h
  rcases List.append_eq_append_iff.1 h with ⟨u, rfl, hu⟩ | ⟨u, rfl, hu⟩
  · cases u with
    | nil => exact hcd (List.cons.inj hu).1
    | cons x u =>
      obtain rfl := (List.cons.inj hu).1
      exact hc (by simp)
  · cases u with
    | nil => exact hcd (List.cons.inj hu).1.symm
    | cons x u =>
      obtain rfl := (List.cons.inj hu).1
      exact hd (by simp)

section

variable [DecidableEq α]

/-- The first separator. -/
theorem cut_first {a a' s s' : List α} (ha : c ∉ a) (ha' : c ∉ a') (h : a ++ c :: s = a' ++ c :: s') :
    a = a' ∧ s = s' := by
  have hsplit := congrArg (List.splitOn c) h
  rw [List.splitOn_append_cons_self_of_not_mem ha, List.splitOn_append_cons_self_of_not_mem ha'] at hsplit
  obtain ⟨hfirst, hrest⟩ := List.cons.inj hsplit
  have hjoin := congrArg [c].intercalate hrest
  rw [List.intercalate_splitOn, List.intercalate_splitOn] at hjoin
  exact ⟨hfirst, hjoin⟩

/-- The last separator. -/
theorem cut_last {a a' s s' : List α} (hs : c ∉ s) (hs' : c ∉ s') (h : a ++ c :: s = a' ++ c :: s') :
    a = a' ∧ s = s' := by
  have hrev := congrArg List.reverse h
  simp only [List.reverse_append, List.reverse_cons, List.append_assoc, List.singleton_append] at hrev
  obtain ⟨htail, hhead⟩ := cut_first (by simpa using hs) (by simpa using hs') hrev
  exact ⟨List.reverse_injective hhead, List.reverse_injective htail⟩

end

/-! ## Parts -/

/-- Parts with a separator behind each of them. -/
def lines (c : α) (ls : List (List α)) : List α := ls.flatMap (· ++ [c])

@[simp] theorem lines_nil : lines c [] = [] := rfl

@[simp] theorem lines_cons (l : List α) (ls : List (List α)) : lines c (l :: ls) = l ++ c :: lines c ls := by
  simp [lines]

/-- The first parts, and those that are the rest. -/
theorem intercalate_append {ks : List (List α)} (hks : ks ≠ []) : ∀ ls : List (List α),
    [c].intercalate (ls ++ ks) = lines c ls ++ [c].intercalate ks
  | [] => rfl
  | [l] => by
    obtain ⟨k, ks, rfl⟩ := List.exists_cons_of_ne_nil hks
    simp [List.intercalate_cons_cons]
  | l :: l' :: ls => by
    have hrest := intercalate_append hks (l' :: ls)
    have hcons : lines c (l :: l' :: ls) ++ [c].intercalate ks
        = l ++ c :: (lines c (l' :: ls) ++ [c].intercalate ks) := by simp
    rw [hcons, ← hrest]
    simp [List.intercalate_cons_cons]

/-- What stands in parts with a separator between them. -/
theorem mem_intercalate {x : α} : ∀ {ls : List (List α)}, x ∈ [c].intercalate ls → x = c ∨ ∃ l ∈ ls, x ∈ l
  | [], h => absurd h (by simp)
  | [l], h => .inr ⟨l, List.mem_cons_self, by simpa using h⟩
  | l :: l' :: ls, h => by
    rw [List.intercalate_cons_cons, List.append_assoc, List.mem_append, List.mem_append, List.mem_singleton] at h
    rcases h with h | rfl | h
    · exact .inr ⟨l, List.mem_cons_self, h⟩
    · exact .inl rfl
    · rcases mem_intercalate h with rfl | ⟨k, hk, hx⟩
      · exact .inl rfl
      · exact .inr ⟨k, List.mem_cons_of_mem l hk, hx⟩

theorem mem_intercalate_of_mem {x : α} {l : List α} : ∀ {ls : List (List α)}, l ∈ ls → x ∈ l → x ∈ [c].intercalate ls
  | [k], hl, h => by
    obtain rfl := List.mem_singleton.1 hl
    simpa using h
  | k :: k' :: ls, hl, h => by
    rw [List.intercalate_cons_cons, List.mem_append, List.mem_append]
    rcases List.mem_cons.1 hl with rfl | hl
    · exact .inl (.inl h)
    · exact .inr (mem_intercalate_of_mem hl h)

variable [DecidableEq α]

theorem length_splitOn (l : List α) : (l.splitOn c).length = l.count c + 1 := by
  induction l with
  | nil => rfl
  | cons x l ih =>
    rw [List.splitOn_cons_eq_if_modifyHead, List.count_cons]
    split_ifs
    · rw [List.length_cons, ih]
    · rw [List.length_modifyHead, ih]

/-- Parts with a separator between them. -/
theorem count_intercalate : ∀ {ls : List (List α)}, ls ≠ [] →
    ([c].intercalate ls).count c + 1 = (ls.map (List.count c)).sum + ls.length
  | [], h => absurd rfl h
  | [l], _ => by simp
  | l :: l' :: ls, _ => by
    have hne : l' :: ls ≠ [] := by simp
    have hrest := count_intercalate hne
    rw [List.intercalate_cons_cons, List.count_append, List.count_append, List.map_cons, List.sum_cons,
      List.length_cons, List.count_singleton_self]
    omega

theorem count_lines (ls : List (List α)) : (lines c ls).count c = (ls.map (List.count c)).sum + ls.length := by
  induction ls with
  | nil => rfl
  | cons l ls ih =>
    rw [lines_cons, List.count_append, List.count_cons_self, ih, List.map_cons, List.sum_cons, List.length_cons]
    omega

theorem splitOn_lines : ∀ {ls : List (List α)}, (∀ l ∈ ls, c ∉ l) → (lines c ls).splitOn c = ls ++ [[]]
  | [], _ => rfl
  | l :: ls, h => by
    rw [lines_cons, List.splitOn_append_cons_self_of_not_mem (h l List.mem_cons_self),
      splitOn_lines fun k hk => h k (List.mem_cons_of_mem l hk)]
    rfl

theorem not_mem_of_mem_splitOn {xs l : List α} (h : l ∈ xs.splitOn c) : c ∉ l := by
  induction xs generalizing l with
  | nil =>
    obtain rfl := List.mem_singleton.1 h
    exact List.not_mem_nil
  | cons x xs ih =>
    rw [List.splitOn_cons_eq_if_modifyHead] at h
    split_ifs at h with hx
    · rcases List.mem_cons.1 h with rfl | h
      · exact List.not_mem_nil
      · exact ih h
    · have hne : x ≠ c := by simpa using hx
      cases hparts : xs.splitOn c with
      | nil => exact absurd hparts (List.splitOn_ne_nil c xs)
      | cons k ks =>
        rw [hparts] at h ih
        rcases List.mem_cons.1 h with rfl | h
        · exact List.not_mem_cons_of_ne_of_not_mem hne.symm (ih List.mem_cons_self)
        · exact ih (List.mem_cons_of_mem k h)

theorem splitOn_lines_append {ls : List (List α)} (h : ∀ l ∈ ls, c ∉ l) {s : List α} (hs : c ∉ s) :
    (lines c ls ++ s).splitOn c = ls ++ [s] := by
  have hjoin := intercalate_append (c := c) (List.cons_ne_nil s []) ls
  rw [List.intercalate_singleton] at hjoin
  rw [← hjoin]
  refine List.splitOn_intercalate c (fun l hl => ?_) (by simp)
  rcases List.mem_append.1 hl with hl | hl
  · exact h l hl
  · obtain rfl := List.mem_singleton.1 hl
    exact hs

/-- Every text is parts with separators behind them, and a part that is the rest. -/
theorem exists_lines (xs : List α) : ∃ ls s, xs = lines c ls ++ s ∧ (∀ l ∈ ls, c ∉ l) ∧ c ∉ s := by
  obtain ⟨ls, s, hsplit⟩ : ∃ ls s, xs.splitOn c = ls ++ [s] :=
    ⟨_, _, (List.dropLast_append_getLast (List.splitOn_ne_nil c xs)).symm⟩
  have hparts : ∀ l ∈ ls ++ [s], c ∉ l := fun l hl => not_mem_of_mem_splitOn (hsplit ▸ hl)
  refine ⟨ls, s, ?_, fun l hl => hparts l (List.mem_append_left _ hl), hparts s (by simp)⟩
  have hjoin : [c].intercalate (xs.splitOn c) = xs := List.intercalate_splitOn c
  rw [hsplit, intercalate_append (List.cons_ne_nil s []) ls, List.intercalate_singleton] at hjoin
  exact hjoin.symm

/-- Parts among which there are no more separators than behind them. -/
theorem not_mem_of_sum_count {ls : List (List α)} (h : (ls.map (List.count c)).sum = 0) : ∀ l ∈ ls, c ∉ l := by
  intro l hl
  rw [List.sum_eq_zero_iff_forall_eq_nat] at h
  exact List.count_eq_zero.1 (h _ (List.mem_map_of_mem hl))

/-- As many parts in front of two texts. -/
theorem cut_lines : ∀ {ls ls' : List (List α)} {s s' : List α}, ls.length = ls'.length → (∀ l ∈ ls, c ∉ l) →
    (∀ l ∈ ls', c ∉ l) → lines c ls ++ s = lines c ls' ++ s' → ls = ls' ∧ s = s'
  | [], [], _, _, _, _, _, h => ⟨rfl, h⟩
  | l :: ls, l' :: ls', s, s', hlen, hl, hl', h => by
    rw [lines_cons, lines_cons, List.append_assoc, List.append_assoc, List.cons_append, List.cons_append] at h
    obtain ⟨rfl, hrest⟩ := cut_first (hl l List.mem_cons_self) (hl' l' List.mem_cons_self) h
    obtain ⟨rfl, rfl⟩ := cut_lines (Nat.succ.inj hlen) (fun k hk => hl k (List.mem_cons_of_mem l hk))
      (fun k hk => hl' k (List.mem_cons_of_mem l hk)) hrest
    exact ⟨rfl, rfl⟩

end Separated
