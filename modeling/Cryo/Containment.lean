import Cryo.Extract
import Cryo.Lib.Confine

/-!
# Staying inside the output directory

Every call of an extraction that changes something is on the output root followed by names, and the paths it checks are
resolved before it; only where a link leads is decided by its text (`normalize`), not by resolution. So everything an
extraction changes lies below the root as long as the links there lead inside.

* `extraction_contained`: for any index and any failures, if before each change the links below the root led inside,
  all changes lie below it.
* `extraction_escapes`: two links whose texts stay inside together lead outside, and a file is created there.
-/

namespace Cryo

open Posix World

variable {K : Crates} {r : ArchiveReader} {w₀ w : World} {root : Path} {R : Loc}

/-- The output path of an entry is the root followed by names. -/
theorem wp_safeOutputPath_confined (hroot : EmptyRoot w₀ root R) (relative : Path) (h : Confined w₀ R w) :
    Act.wp (safeOutputPath root relative)
      (fun outDir w' => outDir = root ++ Path.ofNames relative.names ∧ Confined w₀ R w')
      (fun _ w' => Confined w₀ R w') w := by
  have hne : root ≠ [] := by
    rintro rfl
    cases hroot.resolves
  refine Act.wp_mono (wp_safeOutputPath_keeps keeps_canonicalize (fun hsafe p hp => ?_) h) ?_ fun _ _ h => h
  · rw [join_safe hne hsafe] at hp
    exact keeps_createDirAll_parent hroot hp
  · rintro outDir w' ⟨⟨hsafe, rfl⟩, h'⟩
    exact ⟨join_safe hne hsafe, h'⟩

namespace ArchiveReader

/-- The parent of an output path. -/
theorem keeps_createParent (hroot : EmptyRoot w₀ root R) (ns : List String) :
    Act.Keeps (Confined w₀ R) (createParent (root ++ Path.ofNames ns)) := by
  unfold createParent
  split
  · rename_i parent hp
    exact keeps_osCall (keeps_createDirAll_parent hroot hp)
  · exact Act.keeps_pure ()

theorem keeps_extractSymlink (hroot : EmptyRoot w₀ r.root R) (f : FileEntry) (ns : List String) :
    Act.Keeps (Confined w₀ R) (r.extractSymlink f (r.root ++ Path.ofNames ns)) := by
  unfold extractSymlink
  split
  · exact Act.keeps_throw _
  · refine Act.keeps_bind (keeps_osCall (keeps_canonicalize _)) fun canonicalRoot => ?_
    refine Act.keeps_bind (keeps_osCall (keeps_canonicalize _)) fun canonicalLinkDir => ?_
    split
    · exact Act.keeps_throw _
    · exact keeps_osCall (keeps_symlink hroot _ ns)

/-- A regular file is created, or emptied, and written where the names lead. -/
theorem keeps_extractRegular (hroot : EmptyRoot w₀ r.root R) (f : FileEntry) (ns : List String) :
    Act.Keeps (Confined w₀ R) (r.extractRegular K f (f.streamOffset + f.size) (r.root ++ Path.ofNames ns)
      (buildBlockRanges r.index.block)) := by
  intro w h
  have hbelow : ∀ {w'} {full : Bytes}, w.Leads (AtOutput w (r.root ++ Path.ofNames ns) full) w' → Confined w₀ R w' := by
    intro w' full hl
    refine h.leads hl ?_
    rintro hsame hlinks ch ⟨l, hl, hnot, hloc, _⟩
    rw [hloc]
    exact hroot.below h hsame hlinks hl (.inl ⟨rfl, hnot⟩)
  refine Act.wp_mono (wp_extractRegular (decoded_decodedBlocks K r r.engine) f _ w) ?_ ?_
  · exact fun _ _ h => hbelow h.1
  · exact fun _ _ h => hbelow h.1

theorem keeps_extractFile (hroot : EmptyRoot w₀ r.root R) (f : FileEntry) (ns : List String) :
    Act.Keeps (Confined w₀ R) (r.extractFile K f (r.root ++ Path.ofNames ns) (buildBlockRanges r.index.block)) := by
  intro w h
  unfold extractFile
  rw [Act.wp_bind]
  refine (Act.wp_lift _).2 ⟨fun fileEnd hcheck => ?_, fun _ _ => h⟩
  obtain ⟨_, _, rfl⟩ := checkEntry_ok.1 (Except.mapError_eq_ok.1 hcheck)
  rw [Act.wp_bind]
  refine Act.wp_mono (keeps_createParent hroot ns w h) (fun _ w₁ h₁ => ?_) fun _ _ h => h
  cases f.ftype with
  | dir => exact keeps_osCall (keeps_createDirAll hroot ns) w₁ h₁
  | symlink => exact keeps_extractSymlink hroot f ns w₁ h₁
  | file => exact keeps_extractRegular hroot f ns w₁ h₁

theorem keeps_extractEntry (hroot : EmptyRoot w₀ r.root R) (f : FileEntry) :
    Act.Keeps (Confined w₀ R) (r.extractEntry K (buildBlockRanges r.index.block) f) := by
  intro w h
  unfold extractEntry
  rw [Act.wp_bind]
  refine Act.wp_mono (wp_safeOutputPath_confined hroot f.path h) ?_ fun _ _ h => h
  rintro _ w₁ ⟨rfl, h₁⟩
  exact keeps_extractFile hroot f f.path.names w₁ h₁

theorem keeps_extractEntries (hroot : EmptyRoot w₀ r.root R) : ∀ files : List FileEntry,
    Act.Keeps (Confined w₀ R) (r.extractEntries K (buildBlockRanges r.index.block) files)
  | [] => Act.keeps_pure ()
  | f :: files => Act.keeps_bind (keeps_extractEntry hroot f) fun _ => keeps_extractEntries hroot files

theorem keeps_handleFiles (hroot : EmptyRoot w₀ r.root R) : Act.Keeps (Confined w₀ R) (r.handleFiles K) := by
  have hrootDir := keeps_createDirAll hroot []
  rw [Path.ofNames, List.map_nil, List.append_nil] at hrootDir
  exact Act.keeps_bind (keeps_osCall hrootDir) fun _ => keeps_extractEntries hroot r.index.files

/-- **An extraction stays inside its root**, whatever the index, whatever fails and however it ends: if before each
change every link below the root led inside or nowhere, every change was made below the root. -/
theorem extraction_contained (hroot : EmptyRoot w₀ r.root R) :
    ∃ new, (r.handleFiles K w₀).2.log = w₀.log ++ new ∧ (r.handleFiles K w₀).2.fs = w₀.fs.replay new ∧
      (Guarded R w₀.fs new → ∀ ch ∈ new, R <+: ch.loc) := by
  have h : Confined w₀ R (r.handleFiles K w₀).2 := Act.snd_of_wp (keeps_handleFiles hroot w₀ (Confined.refl w₀ R))
  obtain ⟨new, hlog, hfs, hin⟩ := h.run
  exact ⟨new, hlog, hfs, fun hguard ch hch => (hin hguard ch hch).1⟩

end ArchiveReader
/-! ## A way out -/

def linkEntry (name : String) (target : Path) : FileEntry :=
  { danglingEntry with path := [.normal name], ftype := .symlink, size := 0, symlinkTarget := some target }

def emptyFile (path : Path) : FileEntry := { danglingEntry with path := path, size := 0 }

/-- An archive without blocks, extracted to `/out`. -/
def blocklessReader (index : Index) : ArchiveReader := { danglingReader with index := index }

theorem emptyRoot_out : EmptyRoot (World.ofDirs [[], ["out"]]) [.rootDir, .normal "out"] ["out"] :=
  ⟨by decide +kernel, by decide, fun ns hns => by simp [World.ofDirs, hns]⟩

/-- What stands somewhere after a run stood there before it or was put there. -/
theorem replay_origin (fs : FS) (l : Loc) (log : List Change) : fs.replay log l = fs l ∨
    ∃ ch ∈ log, ch.loc = l ∧ fs.replay log l = ch.node := by
  induction log using List.reverseRecOn with
  | nil => exact .inl rfl
  | append_singleton log ch ih =>
    rw [FS.replay_append]
    show Function.update (fs.replay log) ch.loc ch.node l = fs l ∨ _
    by_cases hl : ch.loc = l
    · exact .inr ⟨ch, by simp, hl, by subst hl; exact Function.update_self _ _ _⟩
    · have hstep : (fs.replay log).replay [ch] l = fs.replay log l := Function.update_of_ne (Ne.symm hl) _ _
      rw [Function.update_of_ne (Ne.symm hl), hstep]
      exact ih.imp_right fun ⟨c, hc, h⟩ => ⟨c, List.mem_append_left _ hc, h⟩

/-- A link to its own directory, and an empty file behind it. -/
def loopingIndex : Index where
  files := [linkEntry "s" [.curDir], emptyFile [.normal "s", .normal "f"]]
  block := []
  totalStreamSize := 0

/-- A file behind a link that leads inside is created inside. -/
theorem extraction_contained_loop :
    let K := Crates.tabled [Header.stored 512] [loopingIndex]
    let r := blocklessReader loopingIndex
    let w := World.ofDirs [[], ["out"]]
    (r.handleFiles K w).1 = .ok () ∧ (r.handleFiles K w).2.fs ["out", "f"] = some (.file [] 0o644 0) ∧
      ∀ ch ∈ (r.handleFiles K w).2.log, ["out"] <+: ch.loc := by
  intro K r w
  have hlog : (r.handleFiles K w).2.log = [⟨["out", "s"], some (.link [.curDir])⟩,
    ⟨["out", "f"], some (.file [] 0o644 0)⟩, ⟨["out", "f"], some (.file [] 0o644 0)⟩,
    ⟨["out", "f"], some (.file [] 0o644 0)⟩] := by decide +kernel
  obtain ⟨new, hnew, _, hin⟩ := ArchiveReader.extraction_contained (K := K) (r := r) emptyRoot_out
  obtain rfl : (r.handleFiles K w).2.log = new := hnew
  refine ⟨by decide +kernel, by decide +kernel, hin fun pre ch hpre => ?_⟩
  have hpre := (List.prefix_append pre [ch]).trans hpre
  have hmem : ∀ c ∈ pre, c = ⟨["out", "s"], some (.link [.curDir])⟩ ∨ c = ⟨["out", "f"], some (.file [] 0o644 0)⟩ := by
    intro c hc
    have := hpre.subset hc
    rw [hlog] at this
    simpa using this
  -- the only link is `s`, which leads to the root
  intro d n t links l m _ hlink _ hwalk
  rcases replay_origin w.fs (d ++ [n]) pre with hsame | ⟨c, hc, hloc, hnode⟩
  · rw [hsame] at hlink
    simp only [w, World.ofDirs] at hlink
    split at hlink <;> cases hlink
  · rw [hnode] at hlink
    rcases hmem c hc with rfl | rfl
    · obtain ⟨rfl, rfl⟩ : d = ["out"] ∧ n = "s" := by
        have := List.append_inj' (show ["out"] ++ ["s"] = d ++ [n] from hloc) rfl
        simpa [eq_comm] using this
      obtain rfl : [.curDir] = t := by simpa using hlink
      cases hdir : (w.fs.replay pre).isDir ["out"] with
      | false => rw [FS.walk_notDir hdir] at hwalk; cases hwalk
      | true =>
        rw [FS.walk_link hdir hnode, if_neg (by simp)] at hwalk
        cases links with
        | zero => cases hwalk
        | succ k =>
          change (w.fs.replay pre).walk true k ["out"] [.curDir] = _ at hwalk
          rw [FS.walk_curDir, if_pos hdir, FS.walk_nil] at hwalk
          cases hwalk
          exact List.prefix_refl _
    · cases hlink

/-- A link to its own directory, a link that climbs from there, and an empty file of the same name. -/
def escapingIndex : Index where
  files := [linkEntry "s" [.curDir], linkEntry "l" [.normal "s", .parentDir, .normal "evil"], emptyFile [.normal "l"]]
  block := []
  totalStreamSize := 0

/-- **A file is created outside the root**: the text of `s/../evil` stays in `/out`, but `s` leads to `/out` itself, so
`l` leads to `/evil`. -/
theorem extraction_escapes :
    let K := Crates.tabled [Header.stored 512] [escapingIndex]
    let r := blocklessReader escapingIndex
    let w := World.ofDirs [[], ["out"]]
    ArchiveReader.new K r.reader [] r.root Limits.default ⟨none, none⟩ false = .ok r ∧ EmptyRoot w r.root ["out"] ∧
      (r.handleFiles K w).1 = .ok () ∧ ∃ ch ∈ (r.handleFiles K w).2.log, ¬ ["out"] <+: ch.loc := by
  refine ⟨by decide +kernel, emptyRoot_out, by decide +kernel, ⟨["evil"], some (.file [] 0o644 0)⟩, ?_, by decide⟩
  decide +kernel

end Cryo
