import Cryo.Compress
import Mathlib.Data.List.Sort

/-!
# Scanning a directory

`retrieve_all_files` of `compress.rs`: directories are taken from a stack, their names read in order, everything but
special files is found, and the directories among it are put on the stack. What `read_dir` and `file_type` answer is a
parameter (`Dirs`). The loop ends when the stack is empty, which `scan` reaches with enough fuel if ever.

`ScanState.Inv` holds around the loop: no directory is scanned twice, so no path is found twice, and every path is found
below directories that were found (`retrieveAllFiles_found`).
-/

namespace Cryo

open Posix

/-- A name in a directory, with what `file_type` says of it. -/
structure DirEntry where
  fileName : String
  fileType : Except Errno StatKind

/-- `read_dir`, read to its end. A directory holds a name once. -/
structure Dirs where
  readDir : Path → Except Errno (List DirEntry)
  distinct : ∀ {dir names}, readDir dir = .ok names → (names.map DirEntry.fileName).Nodup

/-- The directories to scan, the next one first, and the paths found. -/
structure ScanState where
  stack : List Path
  out : List Path
  deriving DecidableEq

/-- The path of a name in a directory. -/
def DirEntry.path (dir : Path) (entry : DirEntry) : Path := dir.join [.normal entry.fileName]

def scanEntry (dir : Path) (entry : DirEntry) (s : ScanState) : Result ScanState :=
  match entry.fileType with
  | .error e => .error (.recursiveLookupFailed dir e)
  | .ok .dir => .ok ⟨entry.path dir :: s.stack, s.out ++ [entry.path dir]⟩
  | .ok .file | .ok .symlink => .ok { s with out := s.out ++ [entry.path dir] }
  | .ok .other => .ok s

def scanEntries (dir : Path) : List DirEntry → ScanState → Result ScanState
  | [], s => .ok s
  | entry :: names, s => do
    let s ← scanEntry dir entry s
    scanEntries dir names s

variable (dirs : Dirs)

/-- One directory, its names in order. -/
def scanDir (dir : Path) (s : ScanState) : Result ScanState := do
  let names ← (dirs.readDir dir).mapError (.recursiveLookupFailed dir)
  scanEntries dir (names.insertionSort fun a b => a.fileName ≤ b.fileName) s

/-- The loop, until the stack is empty; none when the fuel does not suffice. -/
def scan : Nat → ScanState → Option (Result (List Path))
  | _, ⟨[], out⟩ => some (.ok out)
  | 0, _ => none
  | fuel + 1, ⟨dir :: stack, out⟩ =>
    match scanDir dirs dir ⟨stack, out⟩ with
    | .error e => some (.error e)
    | .ok s => scan fuel s

def retrieveAllFiles (fuel : Nat) (root : Path) : Option (Result (List Path)) := scan dirs fuel ⟨[root], []⟩

/-- The scan of `root` finds `files`. -/
def Finds (root : Path) (files : List Path) : Prop := ∃ fuel, retrieveAllFiles dirs fuel root = some (.ok files)

/-! ## What is found -/

/-- What is found: everything but special files. -/
def DirEntry.isFound (entry : DirEntry) : Bool :=
  match entry.fileType with
  | .ok .dir | .ok .file | .ok .symlink => true
  | _ => false

def DirEntry.isDir (entry : DirEntry) : Bool :=
  match entry.fileType with
  | .ok .dir => true
  | _ => false

/-- `read_dir` lists the path, as something of kind `k`. -/
def Listed (p : Path) (k : StatKind) : Prop :=
  ∃ dir names entry, dirs.readDir dir = .ok names ∧ entry ∈ names ∧ entry.fileType = .ok k ∧ p = entry.path dir

variable {dirs} {dir root : Path} {s s' : ScanState}

theorem DirEntry.path_eq (dir : Path) (entry : DirEntry) : entry.path dir = dir ++ [.normal entry.fileName] := by
  unfold DirEntry.path Path.join
  rw [if_neg (by simp [Path.isAbsolute])]
  split
  · rename_i h
    rw [h]
    rfl
  · rfl

/-- **One directory** adds what is found in it, and puts the directories on the stack. -/
theorem scanEntries_ok : ∀ {names : List DirEntry} {s : ScanState}, scanEntries dir names s = .ok s' →
    s' = ⟨((names.filter DirEntry.isDir).map (DirEntry.path dir)).reverse ++ s.stack,
      s.out ++ (names.filter DirEntry.isFound).map (DirEntry.path dir)⟩
  | [], s, h => by
    cases h
    simp
  | entry :: names, s, h => by
    obtain ⟨s₁, h₁, h⟩ := Except.bind_eq_ok.1 h
    rw [scanEntries_ok h]
    unfold scanEntry at h₁
    split at h₁
    · cases h₁
    · rename_i hft
      cases h₁
      simp [DirEntry.isDir, DirEntry.isFound, hft]
    · rename_i hft
      cases h₁
      simp [DirEntry.isDir, DirEntry.isFound, hft]
    · rename_i hft
      cases h₁
      simp [DirEntry.isDir, DirEntry.isFound, hft]
    · rename_i hft
      cases h₁
      simp [DirEntry.isDir, DirEntry.isFound, hft]

theorem scanDir_ok (h : scanDir dirs dir s = .ok s') : ∃ (names sorted : List DirEntry), dirs.readDir dir = .ok names ∧
    sorted.Perm names ∧ s' = ⟨((sorted.filter DirEntry.isDir).map (DirEntry.path dir)).reverse ++ s.stack,
      s.out ++ (sorted.filter DirEntry.isFound).map (DirEntry.path dir)⟩ := by
  obtain ⟨names, hnames, h⟩ := Except.bind_eq_ok.1 h
  exact ⟨names, _, Except.mapError_eq_ok.1 hnames, List.perm_insertionSort _ _, scanEntries_ok h⟩

variable (dirs) in
/-- A directory below the root was found, as were all on the way to it. -/
def FoundAlong (root : Path) (out : List Path) (ns : List String) : Prop :=
  ∀ pre, pre <+: ns → pre ≠ [] → root ++ Path.ofNames pre ∈ out ∧ Listed dirs (root ++ Path.ofNames pre) .dir

variable (dirs) in
/-- After the directories `visited` were scanned. -/
structure ScanState.Inv (root : Path) (visited : List Path) (s : ScanState) : Prop where
  once : (s.stack ++ visited).Nodup
  found : s.out.Nodup
  known : ∀ d ∈ s.stack ++ visited, ∃ ns, d = root ++ Path.ofNames ns ∧ FoundAlong dirs root s.out ns
  inside : ∀ p ∈ s.out, ∃ d ∈ visited, ∃ n, p = d ++ [.normal n]

namespace ScanState.Inv

variable {visited : List Path}

theorem start (root : Path) : Inv dirs root [] ⟨[root], []⟩ where
  once := by simp
  found := .nil
  known d hd := by
    obtain rfl : d = root := by simpa using hd
    refine ⟨[], by simp [Path.ofNames], fun pre hpre hne => absurd (List.prefix_nil.1 hpre) hne⟩
  inside p hp := by cases hp

/-- A directory on the stack is the root or was found. -/
theorem root_or_found (h : s.Inv dirs root visited) {d : Path} (hd : d ∈ s.stack ++ visited) :
    d = root ∨ d ∈ s.out := by
  obtain ⟨ns, rfl, hbelow⟩ := h.known d hd
  by_cases hns : ns = []
  · left
    simp [hns, Path.ofNames]
  · exact .inr (hbelow ns (List.prefix_refl _) hns).1

/-- What is in the next directory is new. -/
theorem fresh {stack out : List Path} (h : Inv dirs root visited ⟨dir :: stack, out⟩) (n : String) :
    dir ++ [.normal n] ∉ out ∧ dir ++ [.normal n] ∉ dir :: stack ++ visited := by
  have hout : dir ++ [.normal n] ∉ out := by
    intro hp
    obtain ⟨d, hd, m, heq⟩ := h.inside _ hp
    obtain rfl : dir = d := (List.append_inj' heq rfl).1
    have honce : (dir :: (stack ++ visited)).Nodup := h.once
    exact (List.nodup_cons.1 honce).1 (List.mem_append_right stack hd)
  refine ⟨hout, fun hd => ?_⟩
  rcases h.root_or_found hd with heq | hp
  · obtain ⟨ns, hns, _⟩ := h.known dir (by simp)
    have hlen := congrArg List.length heq
    rw [hns, List.length_append, List.length_append] at hlen
    simp at hlen
    omega
  · exact hout hp

/-- **One turn of the loop.** -/
theorem step {stack out : List Path} (h : Inv dirs root visited ⟨dir :: stack, out⟩)
    (hrun : scanDir dirs dir ⟨stack, out⟩ = .ok s') : s'.Inv dirs root (dir :: visited) := by
  obtain ⟨names, sorted, hread, hperm, rfl⟩ := scanDir_ok hrun
  have hnames : (sorted.map DirEntry.fileName).Nodup := (hperm.map _).nodup_iff.2 (dirs.distinct hread)
  have hpaths : ∀ q : DirEntry → Bool, ((sorted.filter q).map (DirEntry.path dir)).Nodup := fun q => by
    have hsub := hnames.sublist ((List.filter_sublist (p := q) (l := sorted)).map _)
    refine List.pairwise_map.2 ((List.pairwise_map.1 hsub).imp fun {a b} hne heq => hne ?_)
    rw [DirEntry.path_eq, DirEntry.path_eq] at heq
    exact Component.normal.inj (List.singleton_inj.1 (List.append_cancel_left heq))
  have hnew : ∀ {q : DirEntry → Bool} {p : Path}, p ∈ (sorted.filter q).map (DirEntry.path dir) →
      ∃ entry ∈ sorted, q entry = true ∧ p = dir ++ [.normal entry.fileName] := fun {q p} hp => by
    obtain ⟨entry, hentry, rfl⟩ := List.mem_map.1 hp
    obtain ⟨hmem, hq⟩ := List.mem_filter.1 hentry
    exact ⟨entry, hmem, hq, DirEntry.path_eq dir entry⟩
  refine ⟨?_, ?_, fun d hd => ?_, fun p hp => ?_⟩
  · -- the new directories are in front of what was on the stack
    show (_ ++ stack ++ dir :: visited).Nodup
    rw [List.append_assoc]
    refine List.nodup_append.2 ⟨List.nodup_reverse.2 (hpaths _), ?_, ?_⟩
    · exact List.perm_middle.nodup_iff.2 h.once
    · rintro p hp q hq rfl
      obtain ⟨entry, _, _, rfl⟩ := hnew (List.mem_reverse.1 hp)
      exact (h.fresh entry.fileName).2 (List.perm_middle.subset hq)
  · refine List.nodup_append.2 ⟨h.found, hpaths _, ?_⟩
    rintro p hp q hq rfl
    obtain ⟨entry, _, _, rfl⟩ := hnew hq
    exact (h.fresh entry.fileName).1 hp
  · have hmono : ∀ {ns}, FoundAlong dirs root out ns →
        FoundAlong dirs root (out ++ (sorted.filter DirEntry.isFound).map (DirEntry.path dir)) ns :=
      fun hb pre hpre hne =>
      ⟨List.mem_append_left _ (hb pre hpre hne).1, (hb pre hpre hne).2⟩
    have hsplit : d ∈ (sorted.filter DirEntry.isDir).map (DirEntry.path dir) ∨ d ∈ dir :: stack ++ visited := by
      rcases List.mem_append.1 hd with hd | hd
      · rcases List.mem_append.1 hd with hd | hd
        · exact .inl (List.mem_reverse.1 hd)
        · exact .inr (by simp [hd])
      · exact .inr (by rcases List.mem_cons.1 hd with rfl | hd <;> simp [*])
    rcases hsplit with hd | hd
    · -- a directory found in this one
      obtain ⟨entry, hentry, hisDir, rfl⟩ := hnew hd
      obtain ⟨ns, hns, hbelow⟩ := h.known dir (by simp)
      have hdirType : entry.fileType = .ok .dir := by
        unfold DirEntry.isDir at hisDir
        split at hisDir
        · assumption
        · cases hisDir
      have heq : dir ++ [.normal entry.fileName] = root ++ Path.ofNames (ns ++ [entry.fileName]) := by
        rw [hns, Path.ofNames_append, List.append_assoc]; rfl
      refine ⟨ns ++ [entry.fileName], heq, fun pre hpre hne => ?_⟩
      rcases List.prefix_concat_iff.1 hpre with rfl | hpre
      · rw [← heq]
        refine ⟨List.mem_append_right _ (List.mem_map.2 ⟨entry, List.mem_filter.2 ⟨hentry, ?_⟩,
          DirEntry.path_eq dir entry⟩), dir, names, entry, hread, hperm.subset hentry, hdirType,
          (DirEntry.path_eq dir entry).symm⟩
        simp [DirEntry.isFound, hdirType]
      · exact hmono hbelow pre hpre hne
    · obtain ⟨ns, hns, hbelow⟩ := h.known d hd
      exact ⟨ns, hns, hmono hbelow⟩
  · rcases List.mem_append.1 hp with hp | hp
    · obtain ⟨d, hd, n, rfl⟩ := h.inside p hp
      exact ⟨d, List.mem_cons_of_mem _ hd, n, rfl⟩
    · obtain ⟨entry, _, _, rfl⟩ := hnew hp
      exact ⟨dir, List.mem_cons_self, entry.fileName, rfl⟩

end ScanState.Inv

/-- The loop ends with an empty stack. -/
theorem scan_inv : ∀ (fuel : Nat) {s : ScanState} {visited files : List Path}, s.Inv dirs root visited →
    scan dirs fuel s = some (.ok files) → ∃ visited', ScanState.Inv dirs root visited' ⟨[], files⟩
  | _, ⟨[], out⟩, visited, files, hinv, h => by
    unfold scan at h
    obtain rfl : out = files := Except.ok.inj (Option.some.inj h)
    exact ⟨visited, hinv⟩
  | 0, ⟨_ :: _, _⟩, _, _, _, h => by cases h
  | fuel + 1, ⟨dir :: stack, out⟩, visited, files, hinv, h => by
    rw [scan] at h
    split at h
    · cases h
    · rename_i s hs
      exact scan_inv fuel (hinv.step hs) h

/-- **What a scan finds**: distinct paths below the root, each in directories that were found as well. -/
theorem retrieveAllFiles_found {files : List Path} (h : Finds dirs root files) :
    files.Nodup ∧ ∀ p ∈ files, ∃ ns n, p = root ++ Path.ofNames (ns ++ [n]) ∧ FoundAlong dirs root files ns := by
  obtain ⟨fuel, h⟩ := h
  obtain ⟨visited, hinv⟩ := scan_inv fuel (ScanState.Inv.start root) h
  refine ⟨hinv.found, fun p hp => ?_⟩
  obtain ⟨d, hd, n, rfl⟩ := hinv.inside p hp
  obtain ⟨ns, rfl, hbelow⟩ := hinv.known d (by simpa using hd)
  exact ⟨ns, n, by rw [Path.ofNames_append, List.append_assoc]; rfl, hbelow⟩

end Cryo
