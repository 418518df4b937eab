import Mathlib.Data.List.TakeWhile
import Cryo.Lib.Path
import Cryo.Lib.Separated

/-!
# Paths as they are written

The components of a text: it is split at the slashes, repeated slashes and the `.` between them are dropped, and a `.`
at the start of a relative path stays. The last component and its extension are found from the end of the text.

* `fileName_ofString`: the last component is what stands after the last slash.
* `extension_eq_iff`: the extension is what stands after the last dot of a name that does not start there.
-/

namespace Posix

open Separated

namespace Path

/-- What stands between two slashes. -/
def componentOf (part : List Char) : Option Component :=
  if part = [] ∨ part = ['.'] then none
  else if part = ['.', '.'] then some .parentDir
  else some (.normal (String.ofList part))

/-- What stands before the first slash of a text. -/
def firstOf (part : List Char) (absolute : Bool) : Option Component :=
  if part = [] then if absolute then some .rootDir else none
  else if part = ['.'] then some .curDir
  else componentOf part

/-- The path of a text. -/
def ofString (s : String) : Path :=
  let parts := s.toList.splitOn '/'
  (firstOf (parts.headD []) (parts.tail ≠ [])).toList ++ parts.tail.filterMap componentOf

example : ofString "/a//./b/" = [.rootDir, .normal "a", .normal "b"] ∧
    ofString "./../c" = [.curDir, .parentDir, .normal "c"] ∧ ofString "" = [] := by decide

theorem componentOf_normal {part : List Char} (h : part ≠ [] ∧ part ≠ ['.'] ∧ part ≠ ['.', '.']) :
    componentOf part = some (.normal (String.ofList part)) := by
  simp [componentOf, h]

/-- **The last component** is the name after the last slash. -/
theorem fileName_ofString {s : String} {parts : List (List Char)} {last : List Char}
    (hs : s.toList = lines '/' parts ++ last) (hparts : ∀ part ∈ parts, '/' ∉ part) (hslash : '/' ∉ last)
    (hlast : last ≠ [] ∧ last ≠ ['.'] ∧ last ≠ ['.', '.']) : (ofString s).fileName = some (String.ofList last) := by
  have hsplit : s.toList.splitOn '/' = parts ++ [last] := by rw [hs, splitOn_lines_append hparts hslash]
  unfold ofString
  rw [hsplit]
  cases parts with
  | nil => simp [firstOf, fileName, hlast, componentOf_normal hlast]
  | cons part parts =>
    simp only [List.cons_append, List.tail_cons, List.filterMap_append, List.filterMap_cons, List.filterMap_nil,
      componentOf_normal hlast, ← List.append_assoc]
    exact fileName_snoc_normal _ _

theorem extension_of_dot {p : Path} {n : String} {w e : List Char} (hn : p.fileName = some n)
    (hname : n.toList = w ++ '.' :: e) (he : '.' ∉ e) :
    p.extension = if w = [] then none else some (String.ofList e) := by
  have hall : ∀ c ∈ e.reverse, decide (c ≠ '.') = true := by
    intro c hc
    simp only [List.mem_reverse] at hc
    exact decide_eq_true fun heq => he (heq ▸ hc)
  have hrev : n.toList.reverse = e.reverse ++ '.' :: w.reverse := by simp [hname]
  have hbefore : n.toList.reverse.dropWhile (fun c => decide (c ≠ '.')) = '.' :: w.reverse := by
    rw [hrev, List.dropWhile_append_of_pos hall]
    rfl
  have hafter : n.toList.reverse.takeWhile (fun c => decide (c ≠ '.')) = e.reverse := by
    rw [hrev, List.takeWhile_append_of_pos hall]
    simp
  unfold extension
  rw [hn, Option.bind_some]
  dsimp only
  rw [hbefore, hafter]
  cases w <;> simp

/-- A name without a dot. -/
theorem extension_of_no_dot {p : Path} {n : String} (hn : p.fileName = some n) (hname : '.' ∉ n.toList) :
    p.extension = none := by
  have hall : ∀ c ∈ n.toList.reverse, decide (c ≠ '.') = true := by
    intro c hc
    simp only [List.mem_reverse] at hc
    exact decide_eq_true fun heq => hname (heq ▸ hc)
  have hbefore : n.toList.reverse.dropWhile (fun c => decide (c ≠ '.')) = [] := List.dropWhile_eq_nil_iff.2 hall
  unfold extension
  rw [hn, Option.bind_some]
  dsimp only
  rw [hbefore]
  rfl

/-- **The extension**: what stands after the last dot of a name, when something stands before it. -/
theorem extension_eq_iff {p : Path} {n e : String} (hn : p.fileName = some n) (he : '.' ∉ e.toList) :
    p.extension = some e ↔ ∃ w, n.toList = w ++ '.' :: e.toList ∧ w ≠ [] := by
  constructor
  · intro h
    by_cases hdot : '.' ∈ n.toList
    · obtain ⟨front, back, hrev, hfront⟩ := List.eq_append_cons_of_mem (List.mem_reverse.2 hdot)
      have hname : n.toList = back.reverse ++ '.' :: front.reverse := by
        rw [← List.reverse_reverse n.toList, hrev]
        simp
      rw [extension_of_dot hn hname (by simpa using hfront)] at h
      split_ifs at h with hw
      obtain rfl := Option.some.inj h
      exact ⟨back.reverse, by simpa using hname, hw⟩
    · rw [extension_of_no_dot hn hdot] at h
      cases h
  · rintro ⟨w, hname, hw⟩
    rw [extension_of_dot hn hname he, if_neg hw, String.ofList_toList]

end Path

end Posix
