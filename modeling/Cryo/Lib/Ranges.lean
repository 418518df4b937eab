import Cryo.Lib.Bytes

/-!
# Windows of a stream cut into pieces

Pieces laid end to end occupy consecutive ranges (`ranges`). To read the window `[a, b)` of the stream one skips the
ranges that end at or before `a` and then cuts the overlap out of each piece until a range starts at or after `b`
(`pick`). This gives exactly the window of the concatenation (`flatten_pick`), also with empty pieces among the
others.
-/

namespace Ranges

open Bytes

variable {α : Type}

/-- The ranges of pieces of the given sizes, laid end to end from `s`. -/
def ranges : Nat → List Nat → List (Nat × Nat)
  | _, [] => []
  | s, z :: zs => (s, s + z) :: ranges (s + z) zs

@[simp] theorem length_ranges : ∀ (s : Nat) (zs : List Nat), (ranges s zs).length = zs.length
  | _, [] => rfl
  | s, z :: zs => by simp [ranges, length_ranges (s + z) zs]

/-- The `i`-th range starts after the pieces before it. -/
theorem getElem?_ranges : ∀ (s : Nat) (zs : List Nat) (i : Nat) {z : Nat}, zs[i]? = some z →
    (ranges s zs)[i]? = some (s + (zs.take i).sum, s + (zs.take i).sum + z)
  | _, [], _, _, h => by simp at h
  | s, z :: zs, 0, _, h => by simp only [List.getElem?_cons_zero, Option.some.injEq] at h; simp [ranges, h]
  | s, z :: zs, i + 1, y, h => by
    have := getElem?_ranges (s + z) zs i (by simpa using h)
    simpa [ranges, Nat.add_assoc] using this

/-- All ranges from `s` on start at `s` or later. -/
theorem le_start : ∀ {s : Nat} {zs : List Nat} {r : Nat × Nat}, r ∈ ranges s zs → s ≤ r.1 ∧ r.1 ≤ r.2
  | _, [], _, h => by cases h
  | s, z :: zs, r, h => by
    rcases List.mem_cons.1 h with rfl | h
    · exact ⟨Nat.le_refl _, Nat.le_add_right _ _⟩
    · have := le_start h
      omega

/-- The overlaps of `[a, b)` with the pieces, up to the first range that does not overlap. -/
def pick (a b : Nat) : List ((Nat × Nat) × List α) → List (List α)
  | [] => []
  | ((s, e), p) :: rest =>
    if e ≤ a ∨ b ≤ s then [] else slice (a - s) (min e b - s - (a - s)) p :: pick a b rest

/-- The pieces with their ranges. -/
def located (s : Nat) (ps : List (List α)) : List ((Nat × Nat) × List α) :=
  (ranges s (ps.map List.length)).zip ps

theorem located_cons (s : Nat) (p : List α) (ps : List (List α)) :
    located s (p :: ps) = ((s, s + p.length), p) :: located (s + p.length) ps := rfl

/-- Past the start of the window, whole pieces are taken until it ends. -/
theorem flatten_pick_after {a b : Nat} : ∀ {s : Nat} (ps : List (List α)), a < s →
    (pick a b (located s ps)).flatten = slice 0 (b - s) ps.flatten
  | _, [], _ => by simp [located, ranges, pick, slice]
  | s, p :: ps, h => by
    rw [located_cons, pick]
    by_cases hb : b ≤ s
    · simp [hb, Nat.sub_eq_zero_of_le hb]
    · rw [if_neg (by omega), List.flatten_cons, flatten_pick_after ps (by omega), List.flatten_cons, slice_append]
      have h0 : a - s = 0 := by omega
      have hcut : slice 0 (min (s + p.length) b - s - 0) p = slice 0 (b - s) p := by
        unfold slice
        rw [List.drop_zero, show min (s + p.length) b - s - 0 = min (b - s) p.length by omega]
        simp
      rw [h0, hcut]
      congr 2 <;> omega

/-- **Skip, then cut**: the window of the concatenation. -/
theorem flatten_pick (a b : Nat) : ∀ (s : Nat) (ps : List (List α)),
    (pick a b ((located s ps).dropWhile (fun r => r.1.2 ≤ a))).flatten
      = slice (a - s) (b - s - (a - s)) ps.flatten
  | s, [] => by simp [located, ranges, pick, slice]
  | s, p :: ps => by
    rw [located_cons, List.flatten_cons, slice_append]
    by_cases hskip : s + p.length ≤ a
    · rw [List.dropWhile_cons_of_pos (by simpa using hskip), flatten_pick a b (s + p.length) ps,
        slice_eq_nil (by omega : p.length ≤ a - s), List.nil_append]
      congr 1 <;> omega
    · rw [List.dropWhile_cons_of_neg (by simpa using hskip), pick]
      by_cases hb : b ≤ s
      · have h0 : b - s = 0 := by omega
        simp [hb, h0]
      · rw [if_neg (by omega), List.flatten_cons, flatten_pick_after ps (by omega)]
        have hcut : slice (a - s) (min (s + p.length) b - s - (a - s)) p = slice (a - s) (b - s - (a - s)) p := by
          unfold slice
          rw [show min (s + p.length) b - s - (a - s) = min (b - s - (a - s)) (p.length - (a - s)) by omega,
            ← List.length_drop, ← List.take_take, List.take_length]
        rw [hcut]
        congr 2 <;> omega

/-- The window `[off, off + size)` of the whole stream. -/
theorem flatten_pick_zero (off size : Nat) (ps : List (List α)) :
    (pick off (off + size) ((located 0 ps).dropWhile (fun r => r.1.2 ≤ off))).flatten = slice off size ps.flatten := by
  rw [flatten_pick]
  congr 1
  omega

/-! ## Skipping by position -/

theorem map_fst_located (s : Nat) (ps : List (List α)) :
    (located s ps).map Prod.fst = ranges s (ps.map List.length) := by
  unfold located
  rw [List.map_fst_zip (by simp)]

theorem located_drop : ∀ (k s : Nat) (ps : List (List α)),
    (located s ps).drop k = located (s + ((ps.take k).map List.length).sum) (ps.drop k)
  | 0, s, ps => by simp
  | k + 1, s, [] => by simp [located]
  | k + 1, s, p :: ps => by
    rw [located_cons, List.drop_succ_cons, located_drop k (s + p.length) ps]
    simp [Nat.add_assoc]

/-- How many ranges end at or before `a`. -/
def skipped (a : Nat) (rs : List (Nat × Nat)) : Nat := (rs.takeWhile (fun r => r.2 ≤ a)).length

/-- Skipping by counting the ranges is skipping the pieces. -/
theorem dropWhile_located (a s : Nat) (ps : List (List α)) :
    (located s ps).dropWhile (fun r => r.1.2 ≤ a)
      = (located s ps).drop (skipped a (ranges s (ps.map List.length))) := by
  have hlen : ((located s ps).takeWhile (fun r => r.1.2 ≤ a)).length
      = skipped a (ranges s (ps.map List.length)) := by
    unfold skipped
    rw [← map_fst_located, List.takeWhile_map, List.length_map]
    rfl
  rw [← hlen]
  generalize located s ps = rs
  have hsplit := List.takeWhile_append_dropWhile (p := fun r : (Nat × Nat) × List α => r.1.2 ≤ a) (l := rs)
  conv_rhs => arg 2; rw [← hsplit]
  rw [List.drop_left]

/-- The window, from the first range that ends after its start. -/
theorem flatten_pick_skipped (off size : Nat) (ps : List (List α)) :
    (pick off (off + size) (located (((ps.take (skipped off (ranges 0 (ps.map List.length)))).map List.length).sum)
      (ps.drop (skipped off (ranges 0 (ps.map List.length)))))).flatten = slice off size ps.flatten := by
  rw [← flatten_pick_zero, dropWhile_located, located_drop, Nat.zero_add]

/-- The ranges of pieces laid behind others. -/
theorem ranges_append : ∀ (s : Nat) (ys zs : List Nat), ranges s (ys ++ zs) = ranges s ys ++ ranges (s + ys.sum) zs
  | _, [], _ => by simp [ranges]
  | s, y :: ys, zs => by
    rw [List.cons_append, ranges, ranges_append (s + y) ys zs, ranges, List.sum_cons, Nat.add_assoc, List.cons_append]

theorem ranges_drop (k s : Nat) (zs : List Nat) : (ranges s zs).drop k = ranges (s + (zs.take k).sum) (zs.drop k) := by
  conv_lhs => rw [← List.take_append_drop k zs]
  by_cases hk : k ≤ zs.length
  · rw [ranges_append, List.drop_left' (by rw [length_ranges, List.length_take, Nat.min_eq_left hk])]
  · have hdrop : zs.drop k = [] := List.drop_eq_nil_iff.2 (by omega)
    rw [hdrop, List.append_nil, List.drop_eq_nil_iff.2 (by rw [length_ranges, List.length_take]; omega)]
    rfl

/-! ## The ranges that are visited -/

/-- A range ends after `a` and starts before `b`. -/
def Touches (a b : Nat) (r : Nat × Nat) : Prop := a < r.2 ∧ r.1 < b

instance (a b : Nat) (r : Nat × Nat) : Decidable (Touches a b r) := inferInstanceAs (Decidable (_ ∧ _))

theorem not_touches {a b : Nat} {r : Nat × Nat} : ¬ Touches a b r ↔ r.2 ≤ a ∨ r.1 ≥ b := by
  unfold Touches
  omega

/-- The overlap is cut out of the piece within its bounds, and no subtraction underflows. -/
theorem Touches.in_bounds {a b s z : Nat} (hab : a ≤ b) (h : Touches a b (s, s + z)) :
    s ≤ min b (s + z) ∧ a - s ≤ min b (s + z) - s ∧ min b (s + z) - s ≤ z := by
  obtain ⟨hstop, hstart⟩ := h
  simp only at hstop hstart
  omega

/-- Ranges from the end of the window on do not touch it. -/
theorem none_touches {a b s : Nat} (h : b ≤ s) (n : Nat) (zs : List Nat) :
    ((ranges s zs).zipIdx n).filter (fun v => Touches a b v.1) = [] := by
  rw [List.filter_eq_nil_iff]
  intro v hv htouch
  have hstart := (le_start (List.fst_mem_of_mem_zipIdx hv)).1
  have hbefore : v.1.1 < b := (of_decide_eq_true htouch).2
  omega

/-- Past the start of the window, the first range that does not touch it is followed by none that does. -/
theorem takeWhile_after {a b : Nat} : ∀ (s n : Nat) (zs : List Nat), a < s →
    ((ranges s zs).zipIdx n).takeWhile (fun v => Touches a b v.1)
      = ((ranges s zs).zipIdx n).filter (fun v => Touches a b v.1)
  | _, _, [], _ => rfl
  | s, n, z :: zs, h => by
    rw [ranges, List.zipIdx_cons]
    by_cases hb : s < b
    · have htouch : Touches a b (s, s + z) := ⟨by simp only; omega, hb⟩
      rw [List.takeWhile_cons_of_pos (by simpa using htouch), List.filter_cons_of_pos (by simpa using htouch),
        takeWhile_after (s + z) (n + 1) zs (by omega)]
    · have hhead : ¬ Touches a b (s, s + z) := fun htouch => hb htouch.2
      rw [List.takeWhile_cons_of_neg (by simpa using hhead), List.filter_cons_of_neg (by simpa using hhead),
        none_touches (by omega)]

/-- **Skip, then stop**: what is visited are all ranges that touch the window, also with empty ranges among them. -/
theorem visited_eq_filter {a b : Nat} : ∀ (s n : Nat) (zs : List Nat),
    (((ranges s zs).zipIdx n).drop (skipped a (ranges s zs))).takeWhile (fun v => Touches a b v.1)
      = ((ranges s zs).zipIdx n).filter (fun v => Touches a b v.1)
  | _, _, [] => rfl
  | s, n, z :: zs => by
    by_cases hskip : s + z ≤ a
    · have hhead : ¬ Touches a b (s, s + z) := fun htouch => Nat.not_lt.2 hskip htouch.1
      have hcount : skipped a (ranges s (z :: zs)) = skipped a (ranges (s + z) zs) + 1 := by
        unfold skipped
        rw [ranges, List.takeWhile_cons_of_pos (by simpa using hskip), List.length_cons]
      rw [hcount, ranges, List.zipIdx_cons, List.drop_succ_cons, visited_eq_filter (s + z) (n + 1) zs,
        List.filter_cons_of_neg (by simpa using hhead)]
    · have hcount : skipped a (ranges s (z :: zs)) = 0 := by
        unfold skipped
        rw [ranges, List.takeWhile_cons_of_neg (by simpa using hskip), List.length_nil]
      rw [hcount, List.drop_zero, ranges, List.zipIdx_cons]
      by_cases hb : s < b
      · have htouch : Touches a b (s, s + z) := ⟨Nat.not_le.1 hskip, hb⟩
        rw [List.takeWhile_cons_of_pos (by simpa using htouch), List.filter_cons_of_pos (by simpa using htouch),
          takeWhile_after (s + z) (n + 1) zs (Nat.not_le.1 hskip)]
      · have hhead : ¬ Touches a b (s, s + z) := fun htouch => hb htouch.2
        rw [List.takeWhile_cons_of_neg (by simpa using hhead), List.filter_cons_of_neg (by simpa using hhead),
          none_touches (by omega)]

/-- The same without the numbers. -/
theorem touching_eq_filter {a b : Nat} (s : Nat) (zs : List Nat) :
    ((ranges s zs).drop (skipped a (ranges s zs))).takeWhile (fun r => Touches a b r)
      = (ranges s zs).filter (fun r => Touches a b r) := by
  have hnumbers := List.zipIdx_map_fst 0 (ranges s zs)
  have hvisited : (((ranges s zs).zipIdx.map Prod.fst).drop (skipped a (ranges s zs))).takeWhile
      (fun r => Touches a b r) = ((ranges s zs).zipIdx.map Prod.fst).filter (fun r => Touches a b r) := by
    rw [← List.map_drop, List.takeWhile_map, List.filter_map]
    exact congrArg (List.map Prod.fst) (visited_eq_filter s 0 zs)
  rwa [hnumbers] at hvisited

/-- How much of a range lies in `[a, b)`. -/
def overlap (a b : Nat) (r : Nat × Nat) : Nat := min b r.2 - max a r.1

/-- What is cut out of the pieces has the lengths of the overlaps. -/
theorem lengths_pick {a b : Nat} (hab : a ≤ b) : ∀ (s : Nat) (ps : List (List α)),
    (pick a b (located s ps)).map List.length
      = ((ranges s (ps.map List.length)).takeWhile (fun r => Touches a b r)).map (overlap a b)
  | _, [] => rfl
  | s, p :: ps => by
    rw [located_cons, pick, List.map_cons, ranges]
    by_cases hover : s + p.length ≤ a ∨ b ≤ s
    · rw [if_pos hover, List.takeWhile_cons_of_neg (by simpa using not_touches.2 hover)]
      rfl
    · have htouch : Touches a b (s, s + p.length) := by
        by_contra hnone
        exact hover (not_touches.1 hnone)
      rw [if_neg hover, List.takeWhile_cons_of_pos (by simpa using htouch), List.map_cons, List.map_cons,
        lengths_pick hab (s + p.length) ps, length_slice]
      congr 1
      unfold overlap
      simp only
      omega

/-- The lengths of what the window is put together from, also with pieces laid behind it. -/
theorem overlaps_append {a b s : Nat} {ys : List Nat} (hin : b ≤ s + ys.sum) (zs : List Nat) :
    (ranges s (ys ++ zs)).filter (fun r => Touches a b r) = (ranges s ys).filter (fun r => Touches a b r) := by
  rw [ranges_append, List.filter_append]
  refine List.append_right_eq_self.2 (List.filter_eq_nil_iff.2 fun r hr htouch => ?_)
  have hstart := (le_start hr).1
  have hbefore : r.1 < b := (of_decide_eq_true htouch).2
  omega

end Ranges
