import Mathlib.Data.List.Basic

/-!
# Unix paths as sequences of components

A path is the list of its components, as a parser that drops repeated separators and inner `.` yields them. `join`,
`parent`, `stripPrefix` and `startsWith` work component by component; an absolute second argument of `join` replaces
the first. `ofLoc` is the absolute path of a location, that is of the names from the root.
-/

namespace Posix

/-- One component of a path. -/
inductive Component where
  | rootDir
  | curDir
  | parentDir
  | normal (name : String)
  deriving DecidableEq, Repr

abbrev Path := List Component

/-- A place in the tree: the names from the root. -/
abbrev Loc := List String

namespace Path

def isAbsolute (p : Path) : Bool := p.head? = some .rootDir

/-- `base` followed by `p`; `p` alone when it is absolute. -/
def join (base p : Path) : Path :=
  if p.isAbsolute then p
  else if base = [] then p
  else base ++ p.filter (· ≠ .curDir)

/-- The path without its last component; none for the root and the empty path. -/
def parent (p : Path) : Option Path :=
  match p.getLast? with
  | none => none
  | some .rootDir => none
  | some _ => some p.dropLast

/-- The last component when it is a name. -/
def fileName (p : Path) : Option String :=
  match p.getLast? with
  | some (.normal n) => some n
  | _ => none

/-- What stands after the last dot of the last component; none when it has no dot or only starts with one. -/
def extension (p : Path) : Option String :=
  p.fileName.bind fun n =>
    let before := n.toList.reverse.dropWhile (· ≠ '.')
    if before.length ≤ 1 then none else some (String.ofList (n.toList.reverse.takeWhile (· ≠ '.')).reverse)

/-- The path with another last component; with one more, when the last one is no name. -/
def setFileName (p : Path) (n : String) : Path := join (if p.fileName.isSome then p.dropLast else p) [.normal n]

def startsWith (p base : Path) : Bool := base.isPrefixOf p

/-- What follows `base`, when `p` starts with it. -/
def stripPrefix (p base : Path) : Option Path := if p.startsWith base then some (p.drop base.length) else none

/-- The names in a path. -/
def names (p : Path) : List String := p.filterMap fun
  | .normal n => some n
  | _ => none

/-- The absolute path of a location. -/
def ofLoc (l : Loc) : Path := .rootDir :: l.map .normal

/-- A path of names only. -/
def ofNames (ns : List String) : Path := ns.map .normal

theorem startsWith_iff {p base : Path} : p.startsWith base = true ↔ base <+: p := by
  unfold startsWith; exact List.isPrefixOf_iff_prefix

theorem stripPrefix_append (base p : Path) : stripPrefix (base ++ p) base = some p := by
  have h : startsWith (base ++ p) base = true := startsWith_iff.2 (List.prefix_append base p)
  unfold stripPrefix
  rw [if_pos h, List.drop_left]

theorem eq_of_stripPrefix {p base rel : Path} (h : stripPrefix p base = some rel) : p = base ++ rel := by
  unfold stripPrefix at h
  split at h
  · rename_i hpre
    obtain ⟨q, rfl⟩ := startsWith_iff.1 hpre
    rw [List.drop_left] at h
    rw [Option.some.inj h]
  · cases h

theorem ofNames_prefix {l m : List String} : ofNames l <+: ofNames m ↔ l <+: m :=
  List.prefix_map_iff_of_injective (fun _ _ h => Component.normal.inj h)

/-- The absolute path of a location starts with that of another exactly when it lies below it. -/
theorem startsWith_ofLoc {l m : Loc} : (ofLoc m).startsWith (ofLoc l) = true ↔ l <+: m := by
  rw [startsWith_iff]
  exact (List.prefix_cons_inj _).trans ofNames_prefix

@[simp] theorem parent_snoc_normal (p : Path) (n : String) : parent (p ++ [.normal n]) = some p := by
  simp [parent]

@[simp] theorem fileName_snoc_normal (p : Path) (n : String) : fileName (p ++ [.normal n]) = some n := by
  simp [fileName]

theorem ofNames_inj {l m : List String} : ofNames l = ofNames m ↔ l = m :=
  List.map_inj_right fun _ _ h => Component.normal.inj h

theorem ofNames_append (a b : List String) : ofNames (a ++ b) = ofNames a ++ ofNames b := by simp [ofNames]

@[simp] theorem names_ofNames (ns : List String) : (ofNames ns).names = ns := by
  induction ns with
  | nil => rfl
  | cons n ns ih => simp [ofNames, names]

end Path
end Posix
