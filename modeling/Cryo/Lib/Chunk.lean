import Mathlib.Data.List.Basic

/-!
# Cutting a stream into chunks of a fixed length

`fullChunks n l` are the consecutive chunks of exactly `n` elements of `l`, `leftover n l` what remains. Cutting what
arrives piece by piece, with the leftover carried over, is cutting the whole (`cut_append`). `chunks n l` adds the
last, shorter chunk.
-/

namespace Chunk

variable {α : Type}

/-- The consecutive chunks of exactly `n` elements; none when `n` is zero. -/
def fullChunks (n : Nat) (l : List α) : List (List α) :=
  if _h : 0 < n ∧ n ≤ l.length then l.take n :: fullChunks n (l.drop n) else []
termination_by l.length
decreasing_by simp; omega

/-- What the full chunks leave. -/
def leftover (n : Nat) (l : List α) : List α :=
  if _h : 0 < n ∧ n ≤ l.length then leftover n (l.drop n) else l
termination_by l.length
decreasing_by simp; omega

/-- All chunks: the full ones and, when something is left, the last shorter one. -/
def chunks (n : Nat) (l : List α) : List (List α) :=
  fullChunks n l ++ if leftover n l = [] then [] else [leftover n l]

variable {n : Nat}

theorem fullChunks_short {l : List α} (h : ¬(0 < n ∧ n ≤ l.length)) : fullChunks n l = [] := by
  rw [fullChunks, dif_neg h]

theorem leftover_short {l : List α} (h : ¬(0 < n ∧ n ≤ l.length)) : leftover n l = l := by
  rw [leftover, dif_neg h]

theorem fullChunks_long {l : List α} (h : 0 < n ∧ n ≤ l.length) :
    fullChunks n l = l.take n :: fullChunks n (l.drop n) := by
  rw [fullChunks, dif_pos h]

theorem leftover_long {l : List α} (h : 0 < n ∧ n ≤ l.length) : leftover n l = leftover n (l.drop n) := by
  rw [leftover, dif_pos h]

/-- The cut loses nothing. -/
theorem flatten_fullChunks (n : Nat) (l : List α) : (fullChunks n l).flatten ++ leftover n l = l := by
  induction l using leftover.induct n with
  | case1 l h ih => rw [fullChunks_long h, leftover_long h, List.flatten_cons, List.append_assoc, ih,
      List.take_append_drop]
  | case2 l h => simp [fullChunks_short h, leftover_short h]

theorem length_of_mem_fullChunks {l c : List α} (hc : c ∈ fullChunks n l) : c.length = n := by
  induction l using leftover.induct n with
  | case1 l h ih =>
    rw [fullChunks_long h] at hc
    rcases List.mem_cons.1 hc with rfl | hc
    · simp [h.2]
    · exact ih hc
  | case2 l h => simp [fullChunks_short h] at hc

theorem length_leftover_lt (hn : 0 < n) (l : List α) : (leftover n l).length < n := by
  induction l using leftover.induct n with
  | case1 l h ih => rw [leftover_long h]; exact ih
  | case2 l h => rw [leftover_short h]; omega

/-- There are no more chunks than elements cut. -/
theorem length_fullChunks_add_le (n : Nat) (l : List α) :
    (fullChunks n l).length + (leftover n l).length ≤ l.length := by
  induction l using leftover.induct n with
  | case1 l h ih =>
    rw [fullChunks_long h, leftover_long h]
    simp only [List.length_cons, List.length_drop] at ih ⊢
    omega
  | case2 l h => simp [fullChunks_short h, leftover_short h]

/-- Full chunks in front pass through the cut. -/
theorem fullChunks_flatten_append (hn : 0 < n) : ∀ {cs : List (List α)}, (∀ c ∈ cs, c.length = n) → ∀ r : List α,
    fullChunks n (cs.flatten ++ r) = cs ++ fullChunks n r ∧ leftover n (cs.flatten ++ r) = leftover n r
  | [], _, r => by simp
  | c :: cs, h, r => by
    have hc : c.length = n := h c List.mem_cons_self
    have hlong : 0 < n ∧ n ≤ (c ++ (cs.flatten ++ r)).length := ⟨hn, by simp; omega⟩
    obtain ⟨h1, h2⟩ := fullChunks_flatten_append hn (fun d hd => h d (List.mem_cons_of_mem _ hd)) r
    rw [List.flatten_cons, List.append_assoc, fullChunks_long hlong, leftover_long hlong, List.take_left' hc,
      List.drop_left' hc, h1, h2]
    exact ⟨rfl, rfl⟩

/-- Cutting what arrives later, with the leftover in front. -/
theorem cut_append (hn : 0 < n) (l m : List α) :
    fullChunks n (l ++ m) = fullChunks n l ++ fullChunks n (leftover n l ++ m) ∧
      leftover n (l ++ m) = leftover n (leftover n l ++ m) := by
  have h := fullChunks_flatten_append hn (fun c (hc : c ∈ fullChunks n l) => length_of_mem_fullChunks hc)
    (leftover n l ++ m)
  rwa [← List.append_assoc, flatten_fullChunks] at h

theorem fullChunks_append (hn : 0 < n) (l m : List α) :
    fullChunks n (l ++ m) = fullChunks n l ++ fullChunks n (leftover n l ++ m) := (cut_append hn l m).1

theorem leftover_append (hn : 0 < n) (l m : List α) : leftover n (l ++ m) = leftover n (leftover n l ++ m) :=
  (cut_append hn l m).2

@[simp] theorem chunks_nil (n : Nat) : chunks n ([] : List α) = [] := by
  have hs : ¬(0 < n ∧ n ≤ ([] : List α).length) := by simp; omega
  simp [chunks, fullChunks_short hs, leftover_short hs]

theorem flatten_chunks (n : Nat) (l : List α) : (chunks n l).flatten = l := by
  unfold chunks
  conv_rhs => rw [← flatten_fullChunks n l]
  split <;> simp_all

/-- Every chunk is non-empty and no longer than `n`. -/
theorem length_of_mem_chunks (hn : 0 < n) {l c : List α} (hc : c ∈ chunks n l) : 0 < c.length ∧ c.length ≤ n := by
  unfold chunks at hc
  rcases List.mem_append.1 hc with hc | hc
  · rw [length_of_mem_fullChunks hc]; exact ⟨hn, Nat.le_refl _⟩
  · split at hc
    · simp at hc
    · rename_i hne
      rw [List.mem_singleton.1 hc]
      exact ⟨List.length_pos_iff.2 hne, Nat.le_of_lt (length_leftover_lt hn l)⟩

end Chunk
