import Cryo.Scan
import Mathlib.Data.Set.Finite.Basic

/-!
# Scanning a tree

A finite tree of files, directories, links and special files (`FsTree`), as `read_dir` shows it below a root, in any
order (`FsTree.Shown`). What `read_dir` answers for other paths is left open, so a link may lead anywhere.

`Covered` holds around the loop: what was found is in the tree, each directory is on the stack or was scanned, and a
scanned directory is found completely. A turn takes a new directory of the tree from the stack, so the loop ends.

* `scan_exact`: the scan finds everything but special files once, directories before what they hold, in whatever order
  the names were read.
-/

namespace Cryo

open Posix

inductive TreeNode where
  | file
  | dir
  | symlink (target : Path)
  | special
  deriving DecidableEq

def TreeNode.kind : TreeNode → StatKind
  | .file => .file
  | .dir => .dir
  | .symlink _ => .symlink
  | .special => .other

/-- A finite tree below a directory: what stands at the end of a list of names. -/
structure FsTree where
  node : List String → Option TreeNode
  root : node [] = some .dir
  closed : ∀ ns n, node (ns ++ [n]) ≠ none → node ns = some .dir
  finite : {ns | node ns ≠ none}.Finite

/-- `read_dir` shows the directories of the tree below `root`. -/
def FsTree.Shown (t : FsTree) (root : Path) (dirs : Dirs) : Prop :=
  ∀ ns, t.node ns = some .dir → ∃ names, dirs.readDir (root ++ Path.ofNames ns) = .ok names ∧
    ∀ entry, entry ∈ names ↔ ∃ x, t.node (ns ++ [entry.fileName]) = some x ∧ entry.fileType = .ok x.kind

theorem append_ofNames_inj {root : Path} {ns ms : List String} :
    root ++ Path.ofNames ns = root ++ Path.ofNames ms ↔ ns = ms := by
  rw [List.append_cancel_left_eq, Path.ofNames_inj]

theorem append_ofNames_snoc (root : Path) (ns : List String) (n : String) :
    root ++ Path.ofNames (ns ++ [n]) = (root ++ Path.ofNames ns) ++ [.normal n] := by
  rw [Path.ofNames_append, List.append_assoc]
  rfl

/-! ## The order of the names does not matter -/

section

variable {names names' : List DirEntry}

theorem eq_of_fileName (hdistinct : (names.map DirEntry.fileName).Nodup) {a b : DirEntry} (ha : a ∈ names)
    (hb : b ∈ names) (h : a.fileName = b.fileName) : a = b := List.inj_on_of_nodup_map hdistinct ha hb h

/-- **Sorted, a directory is read in one order.** -/
theorem insertionSort_eq (hdistinct : (names.map DirEntry.fileName).Nodup)
    (hdistinct' : (names'.map DirEntry.fileName).Nodup) (hmem : ∀ entry, entry ∈ names ↔ entry ∈ names') :
    names.insertionSort (fun a b => a.fileName ≤ b.fileName)
      = names'.insertionSort fun a b => a.fileName ≤ b.fileName := by
  have htotal : Std.Total fun a b : DirEntry => a.fileName ≤ b.fileName := ⟨fun a b => String.le_total _ _⟩
  have htrans : IsTrans DirEntry fun a b => a.fileName ≤ b.fileName := ⟨fun _ _ _ h h' => String.le_trans h h'⟩
  have hperm : names.Perm names' :=
    (List.perm_ext_iff_of_nodup (hdistinct.of_map _) (hdistinct'.of_map _)).2 hmem
  refine List.Perm.eq_of_pairwise
    (fun a b ha hb (hab : a.fileName ≤ b.fileName) (hba : b.fileName ≤ a.fileName) => ?_)
    (List.pairwise_insertionSort _ _) (List.pairwise_insertionSort _ _)
    (((List.perm_insertionSort _ _).trans hperm).trans (List.perm_insertionSort _ _).symm)
  have ha := (List.perm_insertionSort _ _).subset ha
  have hb := (hmem b).2 ((List.perm_insertionSort _ _).subset hb)
  exact eq_of_fileName hdistinct ha hb (String.le_antisymm hab hba)

end

/-- Entries whose type can be read are scanned. -/
theorem exists_scanEntries (dir : Path) : ∀ {names : List DirEntry} (s : ScanState),
    (∀ entry ∈ names, ∃ k, entry.fileType = .ok k) → ∃ s', scanEntries dir names s = .ok s'
  | [], s, _ => ⟨s, rfl⟩
  | entry :: names, s, h => by
    obtain ⟨k, hk⟩ := h entry List.mem_cons_self
    obtain ⟨s₁, h₁⟩ : ∃ s₁, scanEntry dir entry s = .ok s₁ := by
      unfold scanEntry
      rw [hk]
      cases k <;> exact ⟨_, rfl⟩
    obtain ⟨s', h'⟩ := exists_scanEntries dir s₁ fun e he => h e (List.mem_cons_of_mem _ he)
    exact ⟨s', Except.bind_eq_ok.2 ⟨s₁, h₁, h'⟩⟩

namespace FsTree

variable {t : FsTree} {root : Path} {dirs dirs' : Dirs} {ns : List String} {s s' : ScanState}

/-- A directory of the tree can be scanned. -/
theorem Shown.exists_scanDir (h : t.Shown root dirs) (hns : t.node ns = some .dir) (s : ScanState) :
    ∃ s', scanDir dirs (root ++ Path.ofNames ns) s = .ok s' := by
  obtain ⟨names, hread, hmem⟩ := h ns hns
  obtain ⟨s', hs'⟩ : ∃ s', scanEntries (root ++ Path.ofNames ns)
      (names.insertionSort fun a b => a.fileName ≤ b.fileName) s = .ok s' :=
    exists_scanEntries (root ++ Path.ofNames ns) s fun entry hentry => by
      obtain ⟨x, _, hx⟩ := (hmem entry).1 ((List.perm_insertionSort _ _).subset hentry)
      exact ⟨_, hx⟩
  refine ⟨s', ?_⟩
  unfold scanDir
  rw [hread]
  exact hs'

/-- Two readings of the tree scan a directory alike. -/
theorem Shown.scanDir_eq (h : t.Shown root dirs) (h' : t.Shown root dirs') (hns : t.node ns = some .dir)
    (s : ScanState) : scanDir dirs (root ++ Path.ofNames ns) s = scanDir dirs' (root ++ Path.ofNames ns) s := by
  obtain ⟨names, hread, hmem⟩ := h ns hns
  obtain ⟨names', hread', hmem'⟩ := h' ns hns
  unfold scanDir
  rw [hread, hread']
  show scanEntries _ _ s = scanEntries _ _ s
  rw [insertionSort_eq (dirs.distinct hread) (dirs'.distinct hread') fun entry => (hmem entry).trans (hmem' entry).symm]

/-! ## Around the loop -/

/-- What is found is in the tree: of any kind but special, and not the root. -/
def Holds (t : FsTree) (root p : Path) : Prop :=
  ∃ ns x, ns ≠ [] ∧ p = root ++ Path.ofNames ns ∧ t.node ns = some x ∧ x ≠ .special

/-- After the directories `visited` were scanned, of the tree at `root`. -/
structure Covered (t : FsTree) (dirs : Dirs) (root : Path) (visited : List Path) (s : ScanState) : Prop where
  inv : s.Inv dirs root visited
  root_mem : root ∈ s.stack ++ visited
  dirs : ∀ d ∈ s.stack ++ visited, ∃ ns, d = root ++ Path.ofNames ns ∧ t.node ns = some .dir
  sound : ∀ p ∈ s.out, t.Holds root p
  /-- What a scanned directory holds was found, and its directories will be scanned. -/
  complete : ∀ ns n x, root ++ Path.ofNames ns ∈ visited → t.node (ns ++ [n]) = some x → x ≠ .special →
    root ++ Path.ofNames (ns ++ [n]) ∈ s.out ∧ (x = .dir → root ++ Path.ofNames (ns ++ [n]) ∈ s.stack ++ visited)
  /-- Directories were found before what is below them. -/
  ordered : ∀ ns pre, root ++ Path.ofNames ns ∈ s.out → pre <+: ns → pre ≠ [] → pre ≠ ns →
    [root ++ Path.ofNames pre, root ++ Path.ofNames ns].Sublist s.out

variable {visited stack out : List Path} {dir : Path}

theorem Covered.start (t : FsTree) (dirs : Dirs) (root : Path) : t.Covered dirs root [] ⟨[root], []⟩ where
  inv := .start root
  root_mem := by simp
  dirs d hd := by
    obtain rfl : d = root := by simpa using hd
    exact ⟨[], by simp [Path.ofNames], t.root⟩
  sound p hp := by cases hp
  complete ns n x hmem := by cases hmem
  ordered ns pre hmem := by cases hmem

theorem isFound_iff {entry : DirEntry} {x : TreeNode} (h : entry.fileType = .ok x.kind) :
    entry.isFound = true ↔ x ≠ .special := by
  unfold DirEntry.isFound
  rw [h]
  cases x <;> simp [TreeNode.kind]

theorem isDir_iff {entry : DirEntry} {x : TreeNode} (h : entry.fileType = .ok x.kind) :
    entry.isDir = true ↔ x = .dir := by
  unfold DirEntry.isDir
  rw [h]
  cases x <;> simp [TreeNode.kind]

/-- **What a scan finds in a directory** of the tree, and which of it is a directory. -/
theorem Shown.scanned (hshown : t.Shown root dirs) (hns : t.node ns = some .dir)
    (hrun : scanDir dirs (root ++ Path.ofNames ns) ⟨stack, out⟩ = .ok s') :
    ∃ found below : List Path, s' = ⟨below.reverse ++ stack, out ++ found⟩ ∧
      (∀ p, p ∈ found ↔ ∃ n x, t.node (ns ++ [n]) = some x ∧ x ≠ .special ∧ p = root ++ Path.ofNames (ns ++ [n])) ∧
      ∀ p, p ∈ below ↔ ∃ n, t.node (ns ++ [n]) = some .dir ∧ p = root ++ Path.ofNames (ns ++ [n]) := by
  obtain ⟨names, sorted, hread, hperm, rfl⟩ := scanDir_ok hrun
  obtain ⟨names', hread', hmem⟩ := hshown ns hns
  obtain rfl : names = names' := Except.ok.inj (hread.symm.trans hread')
  refine ⟨_, _, rfl, fun p => ?_, fun p => ?_⟩
  · simp only [List.mem_map, List.mem_filter, hperm.mem_iff, append_ofNames_snoc]
    constructor
    · rintro ⟨entry, ⟨hentry, hisFound⟩, rfl⟩
      obtain ⟨x, hx, hk⟩ := (hmem entry).1 hentry
      exact ⟨entry.fileName, x, hx, (isFound_iff hk).1 hisFound, DirEntry.path_eq _ entry⟩
    · rintro ⟨n, x, hx, hne, rfl⟩
      exact ⟨⟨n, .ok x.kind⟩, ⟨(hmem _).2 ⟨x, hx, rfl⟩, (isFound_iff rfl).2 hne⟩, DirEntry.path_eq _ _⟩
  · simp only [List.mem_map, List.mem_filter, hperm.mem_iff, append_ofNames_snoc]
    constructor
    · rintro ⟨entry, ⟨hentry, hisDir⟩, rfl⟩
      obtain ⟨x, hx, hk⟩ := (hmem entry).1 hentry
      obtain rfl := (isDir_iff hk).1 hisDir
      exact ⟨entry.fileName, hx, DirEntry.path_eq _ entry⟩
    · rintro ⟨n, hx, rfl⟩
      exact ⟨⟨n, .ok .dir⟩, ⟨(hmem _).2 ⟨.dir, hx, rfl⟩, rfl⟩, DirEntry.path_eq _ _⟩

/-- **One turn of the loop.** -/
theorem Covered.step (hshown : t.Shown root dirs) (h : t.Covered dirs root visited ⟨dir :: stack, out⟩)
    (hrun : scanDir dirs dir ⟨stack, out⟩ = .ok s') : t.Covered dirs root (dir :: visited) s' := by
  obtain ⟨ns, hdir, hns⟩ := h.dirs dir (by simp)
  subst hdir
  have hinv := h.inv.step hrun
  obtain ⟨found, below, rfl, hfound, hbelow⟩ := hshown.scanned hns hrun
  -- what was on the stack or scanned still is
  have hold : ∀ d, d ∈ (root ++ Path.ofNames ns) :: stack ++ visited →
      d ∈ below.reverse ++ stack ++ (root ++ Path.ofNames ns) :: visited := by
    intro d hd
    rw [List.append_assoc]
    exact List.mem_append_right _ (List.perm_middle.symm.subset hd)
  refine ⟨hinv, hold _ h.root_mem, fun d hd => ?_, fun p hp => ?_, fun ms n x hms hx hne => ?_,
    fun ms pre hms hpre hnil hne => ?_⟩
  · rcases List.mem_append.1 hd with hd | hd
    · rcases List.mem_append.1 hd with hd | hd
      · obtain ⟨n, hn, rfl⟩ := (hbelow d).1 (List.mem_reverse.1 hd)
        exact ⟨ns ++ [n], rfl, hn⟩
      · exact h.dirs d (by simp [hd])
    · rcases List.mem_cons.1 hd with rfl | hd
      · exact ⟨ns, rfl, hns⟩
      · exact h.dirs d (by simp [hd])
  · rcases List.mem_append.1 hp with hp | hp
    · exact h.sound p hp
    · obtain ⟨n, x, hx, hne, rfl⟩ := (hfound p).1 hp
      exact ⟨ns ++ [n], x, by simp, rfl, hx, hne⟩
  · rcases List.mem_cons.1 hms with heq | hms
    · obtain rfl := append_ofNames_inj.1 heq
      refine ⟨List.mem_append_right _ ((hfound _).2 ⟨n, x, hx, hne, rfl⟩), ?_⟩
      rintro rfl
      exact List.mem_append_left _ (List.mem_append_left _ (List.mem_reverse.2 ((hbelow _).2 ⟨n, hx, rfl⟩)))
    · obtain ⟨hout, hstack⟩ := h.complete ms n x hms hx hne
      exact ⟨List.mem_append_left _ hout, fun hxdir => hold _ (hstack hxdir)⟩
  · rcases List.mem_append.1 hms with hms | hms
    · exact (h.ordered ms pre hms hpre hnil hne).trans (List.sublist_append_left _ _)
    · -- everything on the way to this directory was found before
      obtain ⟨n, x, _, _, heq⟩ := (hfound _).1 hms
      obtain rfl := append_ofNames_inj.1 heq
      have hpre : pre <+: ns := (List.prefix_concat_iff.1 hpre).resolve_left hne
      have hmem : root ++ Path.ofNames pre ∈ out := by
        obtain ⟨ns', hns', halong⟩ := h.inv.known (root ++ Path.ofNames ns) (by simp)
        obtain rfl := append_ofNames_inj.1 hns'
        exact (halong pre hpre hnil).1
      exact (List.singleton_sublist.2 hmem).append (List.singleton_sublist.2 hms)

/-! ## The whole loop -/

theorem scan_mono : ∀ {fuel : Nat} {s : ScanState} {r : Result (List Path)} (more : Nat),
    scan dirs fuel s = some r → scan dirs (fuel + more) s = some r
  | _, ⟨[], out⟩, r, more, h => by
    unfold scan at h ⊢
    exact h
  | 0, ⟨_ :: _, _⟩, _, _, h => by cases h
  | fuel + 1, ⟨dir :: stack, out⟩, r, more, h => by
    rw [Nat.add_right_comm, scan]
    rw [scan] at h
    split
    · rename_i e he
      rw [he] at h
      exact h
    · rename_i s hs
      rw [hs] at h
      exact scan_mono more h

/-- No more directories are scanned than the tree has. -/
theorem Covered.length_le (h : t.Covered dirs root visited s) : visited.length ≤ t.finite.toFinset.card := by
  have hnodup : visited.Nodup := (List.nodup_append.1 h.inv.once).2.1
  have hsub : visited.toFinset ⊆ t.finite.toFinset.image fun ns => root ++ Path.ofNames ns := by
    intro d hd
    obtain ⟨ns, rfl, hns⟩ := h.dirs d (List.mem_append_right _ (List.mem_toFinset.1 hd))
    refine Finset.mem_image.2 ⟨ns, ?_, rfl⟩
    simp [hns]
  rw [← List.toFinset_card_of_nodup hnodup]
  exact (Finset.card_le_card hsub).trans Finset.card_image_le

/-- **The loop ends** before the tree has no more directories, and all readings of the tree end alike. -/
theorem Covered.scan (hshown : t.Shown root dirs) : ∀ (fuel : Nat) {s : ScanState} {visited : List Path},
    t.Covered dirs root visited s → t.finite.toFinset.card < visited.length + fuel →
    ∃ files visited', t.Covered dirs root visited' ⟨[], files⟩ ∧
      ∀ dirs', t.Shown root dirs' → Cryo.scan dirs' fuel s = some (.ok files)
  | fuel, ⟨[], out⟩, visited, h, _ => ⟨out, visited, h, fun dirs' _ => by unfold Cryo.scan; rfl⟩
  | 0, ⟨_ :: _, _⟩, visited, h, hfuel => absurd h.length_le (by omega)
  | fuel + 1, ⟨dir :: stack, out⟩, visited, h, hfuel => by
    obtain ⟨ns, rfl, hns⟩ := h.dirs dir (by simp)
    obtain ⟨s', hs'⟩ := hshown.exists_scanDir hns ⟨stack, out⟩
    obtain ⟨files, visited', hcovered, hrun⟩ := (h.step hshown hs').scan hshown fuel
      (by rw [List.length_cons]; omega)
    refine ⟨files, visited', hcovered, fun dirs' hshown' => ?_⟩
    rw [Cryo.scan, hshown'.scanDir_eq hshown hns, hs']
    exact hrun dirs' hshown'

/-- Every directory of the tree was scanned. -/
theorem Covered.visited_dir (h : t.Covered dirs root visited ⟨[], out⟩) : ∀ ns, t.node ns = some .dir →
    root ++ Path.ofNames ns ∈ visited := by
  intro ns
  induction ns using List.reverseRecOn with
  | nil =>
    intro _
    have := h.root_mem
    simpa [Path.ofNames] using this
  | append_singleton ns n ih =>
    intro hdir
    have hparent := t.closed ns n (by simp [hdir])
    exact (h.complete ns n .dir (ih hparent) hdir (by simp)).2 rfl

/-- **Everything is found.** -/
theorem Covered.mem_iff (h : t.Covered dirs root visited ⟨[], out⟩) (p : Path) : p ∈ out ↔ t.Holds root p := by
  refine ⟨h.sound p, ?_⟩
  rintro ⟨ns, x, hnil, rfl, hx, hne⟩
  obtain ⟨ms, n, rfl⟩ := (List.eq_nil_or_concat' ns).resolve_left hnil
  exact (h.complete ms n x (h.visited_dir ms (t.closed ms n (by simp [hx]))) hx hne).1

/-- The scan of a tree ends, with one list for all readings. -/
theorem Shown.exists_scan (hshown : t.Shown root dirs) : ∃ files visited fuel,
    t.Covered dirs root visited ⟨[], files⟩ ∧
      ∀ dirs', t.Shown root dirs' → retrieveAllFiles dirs' fuel root = some (.ok files) := by
  obtain ⟨files, visited, hcovered, hrun⟩ := (Covered.start t dirs root).scan hshown (t.finite.toFinset.card + 1)
    (by rw [List.length_nil]; omega)
  exact ⟨files, visited, _, hcovered, hrun⟩

theorem retrieveAllFiles_unique {fuel fuel' : Nat} {r r' : Result (List Path)}
    (h : retrieveAllFiles dirs fuel root = some r) (h' : retrieveAllFiles dirs fuel' root = some r') : r = r' := by
  have hmore := scan_mono fuel' h
  have hmore' := scan_mono fuel h'
  rw [Nat.add_comm] at hmore'
  exact Option.some.inj (hmore.symm.trans hmore')

/-- **What a scan of a tree finds** is what the tree holds, whatever reading it scans. -/
theorem Shown.found (hshown : t.Shown root dirs) {files : List Path} (h : Finds dirs root files) :
    (∀ p, p ∈ files ↔ t.Holds root p) ∧ ∀ dirs' files', t.Shown root dirs' → Finds dirs' root files' → files' = files := by
  obtain ⟨fuel, h⟩ := h
  obtain ⟨files₀, visited, fuel₀, hcovered, hrun⟩ := hshown.exists_scan
  obtain rfl : files = files₀ := Except.ok.inj (retrieveAllFiles_unique h (hrun dirs hshown))
  refine ⟨hcovered.mem_iff, fun dirs' files' hshown' h' => ?_⟩
  obtain ⟨fuel', h'⟩ := h'
  exact Except.ok.inj (retrieveAllFiles_unique h' (hrun dirs' hshown'))

/-- **The scan of a tree is exact.** It ends, and finds everything below the root but special files, once, and a
directory before what is below it; every other reading of the tree, in whatever order, finds the same list. -/
theorem scan_exact (hshown : t.Shown root dirs) : ∃ files, Finds dirs root files ∧ files.Nodup ∧
    (∀ p, p ∈ files ↔ t.Holds root p) ∧
    (∀ ns ms, t.node ns = some .dir → ns ≠ [] → ms ≠ [] → root ++ Path.ofNames (ns ++ ms) ∈ files →
      [root ++ Path.ofNames ns, root ++ Path.ofNames (ns ++ ms)].Sublist files) ∧
    ∀ dirs', t.Shown root dirs' → ∀ fuel r, retrieveAllFiles dirs' fuel root = some r → r = .ok files := by
  obtain ⟨files, visited, fuel, hcovered, hrun⟩ := hshown.exists_scan
  refine ⟨files, ⟨fuel, hrun dirs hshown⟩, hcovered.inv.found, hcovered.mem_iff, fun ns ms _ hns hms hmem => ?_,
    fun dirs' hshown' fuel' r hr => retrieveAllFiles_unique hr (hrun dirs' hshown')⟩
  exact hcovered.ordered (ns ++ ms) ns hmem (List.prefix_append ns ms) hns (by simpa using hms)

end FsTree

/-! ## Trees from lists -/

section

variable {nodes : List (List String × TreeNode)}

/-- What a list of nodes holds. -/
def FsTree.ofList (nodes : List (List String × TreeNode)) (root : nodes.lookup [] = some .dir)
    (closed : ∀ p ∈ nodes, p.1 ≠ [] → nodes.lookup p.1.dropLast = some .dir) : FsTree where
  node ns := nodes.lookup ns
  root := root
  closed ns n h := by
    obtain ⟨x, hx⟩ := Option.ne_none_iff_exists'.1 h
    obtain ⟨l₁, l₂, rfl, _⟩ := List.lookup_eq_some_iff.1 hx
    simpa using closed (ns ++ [n], x) (by simp) (by simp)
  finite := by
    refine (nodes.map Prod.fst).finite_toSet.subset fun ns hns => ?_
    obtain ⟨x, hx⟩ := Option.ne_none_iff_exists'.1 hns
    obtain ⟨l₁, l₂, rfl, _⟩ := List.lookup_eq_some_iff.1 hx
    simp

/-- The name of a node in the directory `ns`. -/
def childOf (ns : List String) (p : List String × TreeNode) : Option DirEntry :=
  match p.1.getLast? with
  | some n => if p.1.dropLast = ns then some ⟨n, .ok p.2.kind⟩ else none
  | none => none

theorem childOf_eq_some {ns : List String} {p : List String × TreeNode} {entry : DirEntry} :
    childOf ns p = some entry ↔ p.1 = ns ++ [entry.fileName] ∧ entry.fileType = .ok p.2.kind := by
  obtain ⟨ms, x⟩ := p
  unfold childOf
  rcases List.eq_nil_or_concat' ms with rfl | ⟨ms, n, rfl⟩
  · simp
  · obtain ⟨name, ft⟩ := entry
    simp only [List.getLast?_append, List.getLast?_singleton, Option.some_or, List.dropLast_concat]
    constructor
    · intro h
      split at h
      · rename_i heq
        cases h
        exact ⟨by rw [heq], rfl⟩
      · cases h
    · rintro ⟨heq, rfl⟩
      obtain ⟨rfl, hn⟩ := List.append_inj' heq rfl
      cases hn
      rw [if_pos rfl]

/-- The reading of such a tree below a root, in the order of the list. -/
def Dirs.ofList (root : Path) (nodes : List (List String × TreeNode)) (distinct : (nodes.map Prod.fst).Nodup) :
    Dirs where
  readDir p :=
    match p.stripPrefix root with
    | some rel => if nodes.lookup rel.names = some .dir then .ok (nodes.filterMap (childOf rel.names)) else .error .notdir
    | none => .error .noent
  distinct {dir names} h := by
    split at h
    · split at h
      · cases h
        refine List.pairwise_map.2 (List.pairwise_filterMap.2 ((List.pairwise_map.1 distinct).imp ?_))
        intro p q hne e he e' he' heq
        exact hne ((childOf_eq_some.1 he).1.trans (heq ▸ (childOf_eq_some.1 he').1.symm))
      · cases h
    · cases h

theorem lookup_eq_some_of_mem (distinct : (nodes.map Prod.fst).Nodup) {ns : List String} {x : TreeNode} :
    (ns, x) ∈ nodes ↔ nodes.lookup ns = some x := by
  constructor
  · intro h
    obtain ⟨l₁, l₂, rfl⟩ := List.append_of_mem h
    refine List.lookup_eq_some_iff.2 ⟨l₁, l₂, rfl, fun p hp => bne_iff_ne.2 fun heq => ?_⟩
    rw [List.map_append, List.nodup_append] at distinct
    exact distinct.2.2 p.1 (List.mem_map_of_mem hp) ns (by simp) heq.symm
  · intro h
    obtain ⟨l₁, l₂, rfl, _⟩ := List.lookup_eq_some_iff.1 h
    simp

theorem shown_ofList {root : Path} (hroot : nodes.lookup [] = some .dir)
    (hclosed : ∀ p ∈ nodes, p.1 ≠ [] → nodes.lookup p.1.dropLast = some .dir)
    (hdistinct : (nodes.map Prod.fst).Nodup) :
    (FsTree.ofList nodes hroot hclosed).Shown root (Dirs.ofList root nodes hdistinct) := by
  intro ns hns
  have hns : nodes.lookup ns = some .dir := hns
  refine ⟨nodes.filterMap (childOf ns), ?_, fun entry => ?_⟩
  · unfold Dirs.ofList
    dsimp only
    rw [Path.stripPrefix_append]
    dsimp only
    rw [Path.names_ofNames, if_pos hns]
  · rw [List.mem_filterMap]
    constructor
    · rintro ⟨⟨ms, x⟩, hmem, hchild⟩
      obtain ⟨rfl, hft⟩ := childOf_eq_some.1 hchild
      exact ⟨x, (lookup_eq_some_of_mem hdistinct).1 hmem, hft⟩
    · rintro ⟨x, hx, hft⟩
      exact ⟨_, (lookup_eq_some_of_mem hdistinct).2 hx, childOf_eq_some.2 ⟨rfl, hft⟩⟩

end

/-! ## A tree with a cycle -/

/-- The directory `a` with a file and a link to the directory above it, and a special file beside it. -/
def loopNodes : List (List String × TreeNode) :=
  [(["p"], .special), ([], .dir), (["a"], .dir), (["a", "up"], .symlink [.parentDir]), (["a", "f"], .file)]

def loopTree : FsTree := .ofList loopNodes (by decide) (by decide)

/-- Behind the link stands the tree itself. -/
def loopDirs : Dirs where
  readDir p := (Dirs.ofList [.normal "src"] loopNodes (by decide)).readDir
    (if p = [.normal "src", .normal "a", .normal "up"] then [.normal "src"] else p)
  distinct h := (Dirs.ofList [.normal "src"] loopNodes (by decide)).distinct h

theorem loopTree_shown : loopTree.Shown [.normal "src"] loopDirs := by
  intro ns hns
  have hne : [.normal "src"] ++ Path.ofNames ns ≠ [.normal "src", .normal "a", .normal "up"] := by
    intro heq
    have heq : [.normal "src"] ++ Path.ofNames ns = [.normal "src"] ++ Path.ofNames ["a", "up"] := heq
    obtain rfl : ns = ["a", "up"] := Path.ofNames_inj.1 (List.append_cancel_left heq)
    cases hns
  unfold loopDirs
  dsimp only
  rw [if_neg hne]
  exact shown_ofList (by decide) (by decide) (by decide) ns hns

/-- The link is found and not followed, the special file is not found. -/
theorem scan_exact_loop : ∃ files, Finds loopDirs [.normal "src"] files ∧
    files = [[.normal "src", .normal "a"], [.normal "src", .normal "a", .normal "f"],
      [.normal "src", .normal "a", .normal "up"]] ∧ ∀ p, p ∈ files ↔ loopTree.Holds [.normal "src"] p := by
  obtain ⟨files, hfinds, _, hmem, _, hall⟩ := FsTree.scan_exact loopTree_shown
  have hrun : retrieveAllFiles loopDirs 3 [.normal "src"] = some (.ok [[.normal "src", .normal "a"],
      [.normal "src", .normal "a", .normal "f"], [.normal "src", .normal "a", .normal "up"]]) := by decide +kernel
  exact ⟨files, hfinds, (Except.ok.inj (hall loopDirs loopTree_shown 3 _ hrun)).symm, hmem⟩

end Cryo
