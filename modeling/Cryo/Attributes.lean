import Cryo.Restore

/-!
# Times and modes

What an extraction makes of the time and the mode of an entry. A time is recorded through `as u64`; the extraction adds
it to the epoch, which panics for a time before 1970. The mode of a regular file is set, that of a directory is not:
`extract_file` returns before it. The mode of a file is set before its last bytes leave the buffer.

* `mtime_survives_iff`: the time of a regular file survives exactly when it is not negative.
* `early_file_panics`: a file from 1969.
* `modes_survive_iff`: the modes survive exactly when every directory had the mode that `mkdir` gives, and no set-ID bit
  of a file is taken by the bytes that are written after its mode was set.
* `private_dir_opened`: a directory of mode 700 comes back with mode 755.
-/

namespace Cryo

open Posix World Bytes

variable {K : Crates}

/-! ## Times -/

theorem asU64_lt_iff {t : Int} (hmin : -2 ^ 63 ≤ t) (hmax : t < 2 ^ 63) : asU64 t < 2 ^ 63 ↔ 0 ≤ t := by
  unfold asU64
  omega

theorem asU64_eq_iff {t : Int} (hmax : t < 2 ^ 63) : (asU64 t : Int) = t ↔ 0 ≤ t := by
  unfold asU64
  omega

variable (K) in
/-- A run that read the file `p` below `root`, and the archive it made. -/
inductive Reads : Os → Path → Path → ArchiveWriter → Prop
  | compress {setup : Setup} {env : Env} {args : CompressArgs} {arch : ArchiveWriter} {root p : Path}
    {queue : List Path} : initializeCompression K setup env args = .ok arch →
    queueFiles setup args.pathToCompress args.recursive = .ok (root, queue) → p ∈ queue → Reads env.os root p arch
  | append {P : Os → Nat → Prop} {arch arch' : ArchiveWriter} {setup : AppendSetup} {env : Env} {args : AppendArgs}
    {root p : Path} {queue : List Path} : Made K P arch → Sizes K Limits.default arch →
    Cipher.new K setup.prompts arch.header args.confirm = .ok arch.cipher →
    appendFile K setup env arch.writer.bytes args = .ok arch' →
    queueAppend setup arch.index.files args.fileToAppend = .ok (root, queue) → p ∈ queue → Reads env.os root p arch'

/-- **What was read is in the archive.** -/
theorem Reads.entry (hK : K.Lawful) {os : Os} {root p : Path} {arch : ArchiveWriter} (h : Reads K os root p arch)
    (hsmall : arch.header.blockSize + 16 < 2 ^ 32) :
    ∃ (im : Image K) (raws : List Bytes) (src : Source) (off : Nat), Finished arch im raws ∧
      DecompressingEngine.new K arch.header.compression = .ok ⟨arch.header.compression⟩ ∧
      observe os root arch.header.blockSize p = .ok src ∧ src.entry off ∈ arch.index.files := by
  cases h with
  | compress hrun hqueue hp =>
    obtain ⟨im, root', queue', srcs, hqueue', hobs, hf, hbs, hfiles, hengine⟩ :=
      initializeCompression_finished hK hrun (.inl hsmall)
    obtain ⟨rfl, rfl⟩ := Prod.mk.inj (Except.ok.inj (hqueue.symm.trans hqueue'))
    obtain ⟨src, off, hsrc, he⟩ := exists_entry 0 hobs hp
    exact ⟨im, _, src, off, hf, hengine, hbs ▸ hsrc, hfiles ▸ he⟩
  | append hmade hs hkey hrun hqueue hp =>
    obtain ⟨_, _, hf, hengine⟩ := hmade.finished hK (.inl hs.small)
    obtain ⟨im', root', queue', srcs, _, hqueue', hobs, hf', _, _, hheader, _, hfiles, _⟩ :=
      appendFile_finished hK hf hs hkey hrun
    obtain ⟨rfl, rfl⟩ := Prod.mk.inj (Except.ok.inj (hqueue.symm.trans hqueue'))
    obtain ⟨src, off, hsrc, he⟩ := exists_entry _ hobs hp
    exact ⟨im', _, src, off, hf', hheader ▸ hengine, hheader ▸ hsrc, hfiles ▸ List.mem_append_right _ he⟩

namespace ArchiveReader

variable {r : ArchiveReader} {f : FileEntry} {outDir : Path} {w : World}

/-- The parent of a path that leads somewhere is there already. -/
theorem wp_createParent_there (hrel : w.Reliable) {l : Loc} (hres : w.resolve true outDir = .ok l) :
    Act.wp (createParent outDir) (fun _ w' => w.Leads (fun _ => False) w' ∧ w'.fs = w.fs) (fun _ _ => False) w := by
  unfold createParent
  cases hp : outDir.parent with
  | none => exact ⟨Leads.refl _ w, rfl⟩
  | some p =>
    dsimp only
    rw [wp_osCall]
    by_cases hne : p = []
    · subst hne
      exact ⟨Leads.refl _ w, rfl⟩
    · obtain ⟨d, hd, hdir⟩ := parent_isDir hp hne hres
      exact wp_createDirAll_isDir hrel hd hdir _

/-- **A regular file whose time fits** is extracted with its time when nothing else stops it. -/
theorem wp_extractFile_time (hf : f.ftype = .file) (hsize : f.size ≤ r.limits.effMaxFile)
    (hrange : f.streamOffset + f.size < 2 ^ 64) (htime : f.timestamp < 2 ^ 63) (hread : r.Readable K r.engine)
    (hengine : DecompressingEngine.new K r.header.compression = .ok r.engine) (hbuffer : r.header.blockSize < 2 ^ 63)
    (hrel : w.Reliable) (hw : w.Writable outDir) :
    Act.wp (r.extractFile K f outDir (buildBlockRanges r.index.block)) (fun _ _ => True) (fun _ _ => False) w := by
  obtain ⟨l, hres, hkind⟩ := hw
  unfold extractFile
  rw [checkEntry_bind hsize hrange, Act.wp_bind]
  refine Act.wp_mono (wp_createParent_there hrel hres) ?_ fun _ _ h => h
  rintro _ w₁ ⟨hl, hfs⟩
  rw [hf]
  refine Act.wp_mono (wp_extractRegular (decoded_decodedBlocks K r r.engine) f outDir w₁) (fun _ _ _ => trivial) ?_
  rintro e _ ⟨_, hbad⟩
  have hgood : r.Extractable K f outDir w₁ :=
    ⟨hl.reliable hrel, hread, hengine, hbuffer, htime, hl.writable hfs ⟨l, hres, hkind⟩⟩
  exact hbad ⟨hgood.reliable, hgood.writable, hgood.decodable⟩

end ArchiveReader

/-- **When the time of a file survives.** A regular file was read by a run; of the reader of the archive, where nothing
else stops it, the extraction succeeds with the time that the file had exactly when that is not negative. -/
theorem mtime_survives_iff (hK : K.Lawful) {os : Os} {root p : Path} {arch : ArchiveWriter}
    (h : Reads K os root p arch) (hsmall : arch.header.blockSize + 16 < 2 ^ 32) {m : Metadata}
    (hm : os.symlinkMetadata p = .ok m) (hfile : m.ftype = .file) (hmin : -2 ^ 63 ≤ m.mtime) (hmax : m.mtime < 2 ^ 63)
    {limits : Limits} (hs : Sizes K limits arch)
    (hfits : ∀ e ∈ arch.index.files, e.size ≤ limits.effMaxFile ∧ e.streamOffset + e.size < 2 ^ 64)
    {prompts : Prompts} {confirm : Bool} (hkey : Cipher.new K prompts arch.header confirm = .ok arch.cipher)
    (source out : Path) :
    ∃ r e, ArchiveReader.new K arch.writer.bytes source out limits prompts confirm = .ok r ∧ e ∈ r.index.files ∧
      e.ftype = .file ∧ p.stripPrefix root = some e.path ∧
      ∀ w outDir, w.Reliable → w.Writable outDir →
        ((∃ w', r.extractFile K e outDir (buildBlockRanges r.index.block) w = (.ok (), w') ∧
          ∃ l c mode, w'.resolve true outDir = .ok l ∧ w'.fs l = some (.file c mode m.mtime)) ↔ 0 ≤ m.mtime) := by
  obtain ⟨im, raws, src, off, hf, hengine, hobs, he⟩ := h.entry hK hsmall
  obtain ⟨hm', hpath, _⟩ := observe_ok hobs
  obtain rfl : m = src.metadata := Except.ok.inj (hm.symm.trans hm')
  have hlt := hf.blocks_small hsmall
  have hbuffer : arch.header.blockSize < 2 ^ 63 := by omega
  obtain ⟨hsize, hrange⟩ := hfits _ he
  refine ⟨arch.reader source out limits, src.entry off, hf.new_reader hK hs hkey source out, he, hfile, ?_,
    fun w outDir hrel hw => ⟨?_, fun hnonneg => ?_⟩⟩
  · exact hpath
  · rintro ⟨w', hok, l, c, mode, hres, hnode⟩
    obtain ⟨l', hres', hnode'⟩ := ArchiveReader.extractFile_ok (ArchiveReader.decoded_decodedBlocks K _ _) hfile hok
    obtain rfl : l = l' := Except.ok.inj (hres.symm.trans hres')
    obtain ⟨_, _, htime⟩ := Node.file.inj (Option.some.inj (hnode.symm.trans hnode'))
    exact (asU64_eq_iff hmax).1 htime.symm
  · obtain ⟨_, w', hok, _⟩ := Act.exists_ok (ArchiveReader.wp_extractFile_time (r := arch.reader source out limits)
      (f := src.entry off) hfile hsize hrange ((asU64_lt_iff hmin hmax).2 hnonneg)
      (hf.readable hs.offset hlt source out limits) hengine hbuffer hrel hw)
    obtain ⟨l, hres, hnode⟩ := ArchiveReader.extractFile_ok (ArchiveReader.decoded_decodedBlocks K _ _) hfile hok
    have htime : ((src.entry off).timestamp : Int) = src.metadata.mtime := (asU64_eq_iff hmax).2 hnonneg
    rw [htime] at hnode
    exact ⟨w', hok, l, _, _, hres, hnode⟩

/-- The file `src/a` of three bytes with a time. -/
def datedOs (t : Int) : Os :=
  { Os.ofFiles [([.normal "src", .normal "a"], 3, [1, 2, 3])] with
    symlinkMetadata := fun _ => .ok ⟨.file, 3, t, 0o644⟩ }

def datedEntry (t : Int) : FileEntry := { plainFile "a" 0 3 with timestamp := asU64 t }

def datedIndex (t : Int) : Index := { indexOfA with files := [datedEntry t] }

/-- Five seconds after the epoch. -/
theorem mtime_survives_iff_small :
    let K := Crates.tabled [Header.stored 2] [datedIndex 5]
    ∃ (arch : ArchiveWriter) (r : ArchiveReader) (e : FileEntry) (w' : World),
      ArchiveReader.new K arch.writer.bytes [] [.rootDir, .normal "out"] Limits.default ⟨none, none⟩ false = .ok r ∧
      r.extractFile K e [.rootDir, .normal "out", .normal "a"] (buildBlockRanges r.index.block)
        (World.ofDirs [[], ["out"]]) = (.ok (), w') ∧
      ∃ l c mode, w'.resolve true [.rootDir, .normal "out", .normal "a"] = .ok l ∧
        w'.fs l = some (.file c mode 5) := by
  intro K
  let a : Path := [.normal "src", .normal "a"]
  let footer : Footer := ⟨7, 0, 0, false, Vector.replicate 12 0⟩
  obtain ⟨arch, hrun, hshown⟩ := Except.exists_of_toOption_map (f := ArchiveWriter.shown)
    (x := initializeCompression K (Setup.plain [a]) (Env.plain (datedOs 5)) (CompressArgs.plain 2))
    (b := ([0, 0, 0, 0] ++ [1, 2, 3] ++ List.replicate 0 0 ++ footer.serialize, datedIndex 5, 7, Header.stored 2, .none))
    (by decide +kernel)
  have hs : Sizes K Limits.default arch :=
    sizes_of_shown hshown (by decide +kernel) (by decide +kernel) (by decide) (by decide)
  unfold ArchiveWriter.shown at hshown
  simp only [Prod.mk.injEq] at hshown
  obtain ⟨_, hindex, _, hheader, hcipher⟩ := hshown
  have hreads : Reads K (Env.plain (datedOs 5)).os [.normal "src"] a arch := .compress hrun rfl (by simp)
  obtain ⟨r, e, hnew, _, _, _, hiff⟩ := mtime_survives_iff (m := ⟨.file, 3, 5, 0o644⟩)
    (Crates.tabled_lawful [Header.stored 2] [datedIndex 5]) hreads (by rw [hheader]; decide) rfl rfl (by decide)
    (by decide) hs (by rw [hindex]; decide)
    (show Cipher.new _ ⟨none, none⟩ arch.header false = .ok arch.cipher by rw [hheader, hcipher]; rfl) []
    [.rootDir, .normal "out"]
  have hwritable : (World.ofDirs [[], ["out"]]).Writable [.rootDir, .normal "out", .normal "a"] :=
    ⟨["out", "a"], by decide +kernel, .inl (by decide)⟩
  obtain ⟨w', hok, hnode⟩ := (hiff _ _ (fun _ => rfl) hwritable).2 (by decide)
  exact ⟨arch, r, e, w', hnew, hok, hnode⟩

/-- **A file from 1969**: one second before the epoch, the extraction panics. -/
theorem early_file_panics :
    let K := Crates.tabled [Header.stored 2] [datedIndex (-1)]
    ∃ (arch : ArchiveWriter) (r : ArchiveReader),
      initializeCompression K (Setup.plain [[.normal "src", .normal "a"]]) (Env.plain (datedOs (-1)))
        (CompressArgs.plain 2) = .ok arch ∧
      ArchiveReader.new K arch.writer.bytes [] [.rootDir, .normal "out"] Limits.default ⟨none, none⟩ false = .ok r ∧
      r.index.files = [datedEntry (-1)] ∧
      (r.extractFile K (datedEntry (-1)) [.rootDir, .normal "out", .normal "a"] (buildBlockRanges r.index.block)
        (World.ofDirs [[], ["out"]])).1 = .error (.panic "overflow when adding duration to instant") := by
  intro K
  obtain ⟨arch, hrun, hshown⟩ := Except.exists_of_toOption_map
    (f := fun arch => (ArchiveReader.new K arch.writer.bytes [] [.rootDir, .normal "out"] Limits.default ⟨none, none⟩
      false).toOption.map fun r => (r.index.files, (r.extractFile K (datedEntry (-1))
        [.rootDir, .normal "out", .normal "a"] (buildBlockRanges r.index.block) (World.ofDirs [[], ["out"]])).1))
    (x := initializeCompression K (Setup.plain [[.normal "src", .normal "a"]]) (Env.plain (datedOs (-1)))
      (CompressArgs.plain 2))
    (b := some ([datedEntry (-1)], .error (.panic "overflow when adding duration to instant"))) (by decide +kernel)
  obtain ⟨r, hnew, hr⟩ := Except.exists_of_toOption_map hshown
  obtain ⟨hfiles, hpanic⟩ := Prod.mk.inj hr
  exact ⟨arch, r, hrun, hnew, hfiles, hpanic⟩

/-! ## Modes -/

/-- The last regular file of its place: what it leaves stands in the end. -/
def LastFile (files : List FileEntry) (f : FileEntry) : Prop :=
  ∃ before after, files = before ++ f :: after ∧ f.ftype = .file ∧
    ∀ g ∈ after, g.ftype = .file → g.path.names ≠ f.path.names

theorem LastFile.mem {files : List FileEntry} {f : FileEntry} (h : LastFile files f) : f ∈ files := by
  obtain ⟨before, after, rfl, _⟩ := h
  simp

theorem LastFile.isFile {files : List FileEntry} {f : FileEntry} (h : LastFile files f) : f.ftype = .file := by
  obtain ⟨_, _, _, hfile, _⟩ := h
  exact hfile

/-- One more entry is the last of its place, or is at another place. -/
theorem lastFile_snoc {files : List FileEntry} {f g : FileEntry} : LastFile (files ++ [f]) g ↔
    (f.ftype = .file ∧ g = f) ∨ LastFile files g ∧ (f.ftype = .file → f.path.names ≠ g.path.names) := by
  constructor
  · rintro ⟨before, after, hsplit, hfile, hafter⟩
    rcases List.eq_nil_or_concat' after with rfl | ⟨after, x, rfl⟩
    · obtain ⟨_, hlast⟩ := List.append_inj' hsplit rfl
      obtain rfl := List.singleton_inj.1 hlast
      exact .inl ⟨hfile, rfl⟩
    · rw [← List.cons_append, ← List.append_assoc] at hsplit
      obtain ⟨rfl, hlast⟩ := List.append_inj' hsplit rfl
      obtain rfl := List.singleton_inj.1 hlast
      exact .inr ⟨⟨before, after, rfl, hfile, fun g hg => hafter g (List.mem_append_left _ hg)⟩, hafter f (by simp)⟩
  · rintro (⟨hfile, rfl⟩ | ⟨⟨before, after, rfl, hfile, hafter⟩, hne⟩)
    · exact ⟨files, [], rfl, hfile, by simp⟩
    · refine ⟨before, after ++ [f], by simp, hfile, fun x hx hft => ?_⟩
      rcases List.mem_append.1 hx with hx | hx
      · exact hafter x hx hft
      · obtain rfl := List.mem_singleton.1 hx
        exact hne hft

theorem exists_lastFile {f : FileEntry} (hfile : f.ftype = .file) (files : List FileEntry) (hf : f ∈ files) :
    ∃ g, LastFile files g ∧ g.path.names = f.path.names := by
  induction files using List.reverseRecOn with
  | nil => cases hf
  | append_singleton files x ih =>
    by_cases hx : x.ftype = .file ∧ x.path.names = f.path.names
    · exact ⟨x, lastFile_snoc.2 (.inl ⟨hx.1, rfl⟩), hx.2⟩
    · rcases List.mem_append.1 hf with hf | hf
      · obtain ⟨g, hg, hsame⟩ := ih hf
        exact ⟨g, lastFile_snoc.2 (.inr ⟨hg, fun hft heq => hx ⟨hft, heq.trans hsame⟩⟩), hsame⟩
      · obtain rfl := List.mem_singleton.1 hf
        exact absurd ⟨hfile, rfl⟩ hx

/-- Since `w₀`, where `R` is an empty directory, the entries of `done` were extracted below it and directories were
made. -/
structure Laid (r : ArchiveReader) (w₀ : World) (R : Loc) (done : List FileEntry) (w : World) : Prop where
  cwd : w.cwd = w₀.cwd
  process : w.process = w₀.process
  inherits : w.fs.Inherits R (w₀.fs.setgid R)
  kept : ∀ l, w₀.fs l ≠ none → w.fs l = w₀.fs l
  made : ∀ l x, w₀.fs l = none → w.fs l = some x → (∃ m, x = .dir m ∧ w₀.Made m) ∨ ∃ c m t, x = .file c m t
  dirs : ∀ f ∈ done, f.ftype = .dir → w.fs.isDir (R ++ f.path.names) = true
  files : ∀ f, LastFile done f → ∃ c t, w.fs (R ++ f.path.names) = some (.file c (r.fileMode w₀.process f) t)

namespace Laid

variable {r : ArchiveReader} {w₀ w w' : World} {root : Path} {R l : Loc} {done : List FileEntry} {f : FileEntry}
  {ns : List String}

theorem start (hroot : EmptyRoot w root R) : Laid r w R [] w where
  cwd := rfl
  process := rfl
  inherits := .of_empty hroot.isDir hroot.empty
  kept _ _ := rfl
  made l x hnone hx := by
    rw [hnone] at hx
    cases hx
  dirs := by simp
  files f hf := absurd hf.mem (by simp)

/-- Directories were made. -/
theorem fresh (h : Laid r w₀ R done w) (hf : w.Fresh w') (hcwd : w'.cwd = w.cwd) : Laid r w₀ R done w' where
  cwd := hcwd.trans h.cwd
  process := hf.process.trans h.process
  inherits := hf.inherits _ _ h.inherits
  kept l hl := by
    have heq := h.kept l hl
    rw [hf.kept (by rw [heq]; exact hl), heq]
  made l x hnone hx := by
    rcases hf.nodes l with heq | ⟨_, m, hdir, hm⟩
    · exact h.made l x hnone (heq ▸ hx)
    · rw [hdir] at hx
      exact .inl ⟨m, (Option.some.inj hx).symm, hm.congr h.process⟩
  dirs g hg hdir := by
    obtain ⟨m, hm⟩ := FS.isDir_iff.1 (h.dirs g hg hdir)
    exact FS.isDir_iff.2 ⟨m, by rw [hf.kept (by simp [hm]), hm]⟩
  files g hg := by
    obtain ⟨c, t, hnode⟩ := h.files g hg
    exact ⟨c, t, by rw [hf.kept (by simp [hnode]), hnode]⟩

theorem tick (h : Laid r w₀ R done w) : Laid r w₀ R done w.tick := h.fresh (Fresh.refl w).tick rfl

theorem keeps_mkdir (p : Path) : Act.Keeps (Laid r w₀ R done) (mkdir p) := fun _ h =>
  wp_mkdir (fun _ hl hnone => h.fresh (.emit hnone (FS.resolve_vacant hl hnone)) rfl) fun _ _ => h.tick

theorem keeps_createDirAll (p : Path) : Act.Keeps (Laid r w₀ R done) (createDirAll p) :=
  keeps_createDirAllRev (fun _ h => h.tick) keeps_mkdir _

theorem keeps_canonicalize (p : Path) : Act.Keeps (Laid r w₀ R done) (canonicalize p) := fun _ h =>
  wp_canonicalize (fun _ _ _ => h.tick) fun _ _ => h.tick

/-- The root is the directory it was. -/
theorem root_eq (hroot : EmptyRoot w₀ root R) (h : Laid r w₀ R done w) : w.fs R = w₀.fs R := by
  obtain ⟨m, hm⟩ := FS.isDir_iff.1 hroot.isDir
  exact h.kept R (by simp [hm])

theorem isDir (hroot : EmptyRoot w₀ root R) (h : Laid r w₀ R done w) : w.fs.isDir R = true := by
  have hdir := hroot.isDir
  unfold FS.isDir at hdir ⊢
  rw [h.root_eq hroot]
  exact hdir

/-- **Names below the root lead where they say.** -/
theorem place (hroot : EmptyRoot w₀ root R) (h : Laid r w₀ R done w) {fl : Bool} (hns : fl = false → ns ≠ [])
    (hl : w.resolve fl (root ++ Path.ofNames ns) = .ok l) : l = R ++ ns := by
  obtain ⟨m, hm⟩ := FS.isDir_iff.1 hroot.isDir
  have hres : w.fs.resolve true w.cwd root = .ok R := by
    rw [h.cwd]
    exact FS.resolve_kept h.kept hroot.resolves (by simp [hm])
  by_cases hnil : ns = []
  · subst hnil
    cases fl with
    | false => exact absurd rfl (hns rfl)
    | true =>
      rw [Path.ofNames, List.map_nil, List.append_nil] at hl
      rw [List.append_nil]
      exact Except.ok.inj (hl.symm.trans hres)
  · refine FS.resolve_names_plain hres (fun ms t hlink => ?_) hnil hl
    by_cases hms : ms = []
    · rw [hms, List.append_nil, h.root_eq hroot, hm] at hlink
      cases hlink
    · rcases h.made _ _ (hroot.empty ms hms) hlink with ⟨_, hdir, _⟩ | ⟨_, _, _, hfile⟩
      · cases hdir
      · cases hfile

/-! ## Directories -/

theorem wp_mkdir_place (hroot : EmptyRoot w₀ root R) (h : Laid r w₀ R done w) (hns : ns ≠ []) :
    Act.wp (mkdir (root ++ Path.ofNames ns)) (fun _ w' => Laid r w₀ R done w' ∧ w'.fs.isDir (R ++ ns) = true)
      (fun _ w' => Laid r w₀ R done w') w := by
  refine wp_mkdir (fun l hl hnone => ?_) fun _ _ => h.tick
  obtain rfl := h.place hroot (fun _ => hns) hl
  exact ⟨h.fresh (.emit hnone (FS.resolve_vacant hl hnone)) rfl, FS.isDir_iff.2 ⟨_, Function.update_self _ _ _⟩⟩

theorem wp_orIsDir_place (hroot : EmptyRoot w₀ root R) (h : Laid r w₀ R done w) (e : Errno) :
    Act.wp (orIsDir (root ++ Path.ofNames ns) e) (fun _ w' => Laid r w₀ R done w' ∧ w'.fs.isDir (R ++ ns) = true)
      (fun _ _ => True) w := by
  unfold orIsDir
  rw [Act.wp_bind]
  refine wp_pathIsDir (fun l hl hdir => ?_) fun _ => trivial
  obtain rfl := h.place hroot (fun hfalse => by cases hfalse) hl
  exact ⟨h.tick, hdir⟩

/-- **Where directories were made** there is one. -/
theorem wp_createDirAll_place (hroot : EmptyRoot w₀ root R) (h : Laid r w₀ R done w) (ns : List String) :
    Act.wp (createDirAll (root ++ Path.ofNames ns))
      (fun _ w' => Laid r w₀ R done w' ∧ w'.fs.isDir (R ++ ns) = true) (fun _ _ => True) w := by
  rcases List.eq_nil_or_concat' ns with rfl | ⟨ms, n, rfl⟩
  · refine Act.wp_mono (keeps_createDirAll _ w h) (fun _ w' h' => ⟨h', ?_⟩) fun _ _ _ => trivial
    rw [List.append_nil]
    exact h'.isDir hroot
  · have hfix : root ++ Path.ofNames (ms ++ [n]) = (root ++ Path.ofNames ms) ++ [.normal n] := by
      rw [Path.ofNames_append, List.append_assoc]
      rfl
    rw [hfix, createDirAll_unfold, Act.wp_tryCatch, ← hfix]
    refine Act.wp_mono (h.wp_mkdir_place hroot (by simp)) (fun _ _ h => h) fun e w₁ h₁ => ?_
    split
    · rw [Act.wp_bind]
      refine Act.wp_mono (keeps_createDirAll _ w₁ h₁) (fun _ w₂ h₂ => ?_) fun _ _ _ => trivial
      rw [Act.wp_tryCatch]
      exact Act.wp_mono (h₂.wp_mkdir_place hroot (by simp)) (fun _ _ h => h) fun e' _ h₃ =>
        h₃.wp_orIsDir_place hroot e'
    · exact h₁.wp_orIsDir_place hroot e

/-! ## One entry -/

theorem doneDir (h : Laid r w₀ R done w) (hf : f.ftype = .dir) (hdir : w.fs.isDir (R ++ f.path.names) = true) :
    Laid r w₀ R (done ++ [f]) w where
  __ := h
  dirs g hg hft := by
    rcases List.mem_append.1 hg with hg | hg
    · exact h.dirs g hg hft
    · obtain rfl := List.mem_singleton.1 hg
      exact hdir
  files g hg := by
    rcases lastFile_snoc.1 hg with ⟨hft, _⟩ | ⟨hg, _⟩
    · rw [hf] at hft
      cases hft
    · exact h.files g hg

/-- A regular file was written where no directory stands. -/
theorem doneFile (hroot : EmptyRoot w₀ root R) (h : Laid r w₀ R done w) (hf : f.ftype = .file) {P : Change → Prop}
    (hl : w.Leads P w') (hP : ∀ ch, P ch → ch.loc = R ++ f.path.names)
    (hnot : w.fs.isDir (R ++ f.path.names) = false)
    (hvac : w.fs (R ++ f.path.names) = none → w.fs.Vacancy (R ++ f.path.names)) {c : Bytes} {t : Int}
    (hfile : w'.fs (R ++ f.path.names) = some (.file c (r.fileMode w₀.process f) t)) :
    Laid r w₀ R (done ++ [f]) w' := by
  have hframe : ∀ l, l ≠ R ++ f.path.names → w'.fs l = w.fs l := fun l hne =>
    hl.frame fun ch hch heq => hne (heq.symm.trans (hP ch hch))
  have hnamed : f.path.names ≠ [] := by
    intro hnil
    rw [hnil, List.append_nil, h.isDir hroot] at hnot
    cases hnot
  have hnew := hroot.empty _ hnamed
  have hparent : w.fs.isDir (R ++ f.path.names.dropLast) = true := by
    cases hx : w.fs (R ++ f.path.names) with
    | none => exact h.inherits.parent hnamed hx (hvac hx)
    | some x => exact h.inherits.parents _ x hnamed hx
  refine ⟨hl.cwd.trans h.cwd, hl.process.trans h.process, ?_, fun l hsome => ?_, fun l x hnone hx => ?_,
    fun g hg hft => ?_, fun g hg => ?_⟩
  · rw [(Put.of_leads hl hP hfile).fs]
    refine h.inherits.update hnot fun ns hns => ⟨?_, fun m hm => by cases hm⟩
    obtain rfl := List.append_cancel_left hns
    exact hparent
  · rw [hframe l fun heq => hsome (heq ▸ hnew), h.kept l hsome]
  · by_cases heq : l = R ++ f.path.names
    · subst heq
      rw [hfile] at hx
      exact .inr ⟨c, _, t, (Option.some.inj hx).symm⟩
    · exact h.made l x hnone (hframe l heq ▸ hx)
  · rcases List.mem_append.1 hg with hg | hg
    · have hdir := h.dirs g hg hft
      have hne : R ++ g.path.names ≠ R ++ f.path.names := fun heq => by
        rw [heq, hnot] at hdir
        cases hdir
      unfold FS.isDir at hdir ⊢
      rw [hframe _ hne]
      exact hdir
    · obtain rfl := List.mem_singleton.1 hg
      rw [hf] at hft
      cases hft
  · rcases lastFile_snoc.1 hg with ⟨_, rfl⟩ | ⟨hg, hne⟩
    · exact ⟨c, t, hfile⟩
    · obtain ⟨c', t', hnode⟩ := h.files g hg
      exact ⟨c', t', by rw [hframe _ fun heq => hne hf (List.append_cancel_left heq).symm, hnode]⟩

end Laid

namespace ArchiveReader

variable {r : ArchiveReader}

/-! ## All entries -/

variable {w₀ w : World} {R : Loc} {done : List FileEntry} {f : FileEntry}

/-- **One entry**, file or directory, leaves what it says. -/
theorem wp_extractEntry_laid (hroot : EmptyRoot w₀ r.root R) (hkind : f.ftype ≠ .symlink) (h : Laid r w₀ R done w) :
    Act.wp (r.extractEntry K (buildBlockRanges r.index.block) f) (fun _ w' => Laid r w₀ R (done ++ [f]) w')
      (fun _ _ => True) w := by
  have hne : r.root ≠ [] := by
    intro hnil
    have hres := hroot.resolves
    rw [hnil] at hres
    cases hres
  unfold extractEntry
  rw [Act.wp_bind]
  refine Act.wp_mono (wp_safeOutputPath_keeps Laid.keeps_canonicalize (fun _ p _ => Laid.keeps_createDirAll p) h) ?_
    fun _ _ _ => trivial
  rintro _ w₁ ⟨⟨hsafe, rfl⟩, h₁⟩
  rw [join_safe hne hsafe]
  unfold extractFile
  rw [Act.wp_bind]
  refine (Act.wp_lift _).2 ⟨fun fileEnd hcheck => ?_, fun _ _ => trivial⟩
  obtain ⟨_, _, rfl⟩ := checkEntry_ok.1 (Except.mapError_eq_ok.1 hcheck)
  have hparent : Act.Keeps (Laid r w₀ R done) (createParent (r.root ++ Path.ofNames f.path.names)) := by
    unfold createParent
    split
    · exact keeps_osCall (Laid.keeps_createDirAll _)
    · exact Act.keeps_pure ()
  rw [Act.wp_bind]
  refine Act.wp_mono (hparent w₁ h₁) (fun _ w₂ h₂ => ?_) fun _ _ _ => trivial
  cases hf : f.ftype with
  | symlink => exact absurd hf hkind
  | dir =>
    dsimp only
    rw [wp_osCall]
    exact Act.wp_mono (h₂.wp_createDirAll_place hroot f.path.names) (fun _ _ h => h.1.doneDir hf h.2)
      fun _ _ _ => trivial
  | file =>
    dsimp only
    refine Act.wp_mono (wp_extractRegular (decoded_decodedBlocks K r r.engine) f _ w₂) ?_ fun _ _ _ => trivial
    rintro _ w₃ ⟨hl, _, l, hres, hgrow, hfile⟩
    obtain rfl := h₂.place hroot (fun hfalse => by cases hfalse) hres
    rw [h₂.process] at hfile
    refine h₂.doneFile hroot hf hl ?_ ?_ (FS.resolve_vacant hres) hfile
    · rintro ch ⟨l, hl, _, hloc, _⟩
      rw [hloc]
      exact Except.ok.inj (hl.symm.trans hres)
    · -- a directory would still be one
      cases hdir : w₂.fs.isDir (R ++ f.path.names) with
      | false => rfl
      | true =>
        have := hgrow.isDir hdir
        rw [FS.isDir, hfile] at this
        cases this

theorem wp_extractEntries_laid (hroot : EmptyRoot w₀ r.root R) : ∀ (files done : List FileEntry) {w : World},
    (∀ f ∈ files, f.ftype ≠ .symlink) → Laid r w₀ R done w →
    Act.wp (r.extractEntries K (buildBlockRanges r.index.block) files) (fun _ w' => Laid r w₀ R (done ++ files) w')
      (fun _ _ => True) w
  | [], done, w, _, h => by
    rw [List.append_nil]
    exact h
  | f :: files, done, w, hkind, h => by
    rw [extractEntries, Act.wp_bind]
    refine Act.wp_mono (wp_extractEntry_laid hroot (hkind f List.mem_cons_self) h) ?_ fun _ _ _ => trivial
    intro _ w₁ h₁
    have hsplit : done ++ f :: files = (done ++ [f]) ++ files := by simp
    rw [hsplit]
    exact wp_extractEntries_laid hroot files (done ++ [f]) (fun g hg => hkind g (List.mem_cons_of_mem _ hg)) h₁

/-- **What a run over files and directories leaves**, whatever failed and was overcome. -/
theorem laid_of_handleFiles (hroot : EmptyRoot w r.root R) (hkind : ∀ f ∈ r.index.files, f.ftype ≠ .symlink)
    {w' : World} (h : r.handleFiles K w = (.ok (), w')) : Laid r w R r.index.files w' := by
  have hwp : Act.wp (r.handleFiles K) (fun _ w' => Laid r w R r.index.files w') (fun _ _ => True) w := by
    unfold handleFiles
    rw [Act.wp_bind]
    refine Act.wp_mono (keeps_osCall (Laid.keeps_createDirAll _) w (Laid.start (r := r) hroot)) (fun _ w₁ h₁ => ?_)
      fun _ _ _ => trivial
    exact wp_extractEntries_laid hroot r.index.files [] hkind h₁
  exact (Act.of_wp hwp).1 () h

/-- The mode that a new directory below the root `R` gets, or that of the root for an entry that has no name. -/
def entryDirMode (w : World) (R : Loc) (rootMode : Nat) (f : FileEntry) : Nat :=
  if f.path.names = [] then rootMode % 0o10000 else w.dirMode R

/-- An extracted directory has the mode that it was made with. -/
theorem laid_dirMode (hroot : EmptyRoot w r.root R) {rootMode : Nat} (hmode : w.fs R = some (.dir rootMode)) {w' : World}
    (h : Laid r w R done w') (hf : f ∈ done) (hft : f.ftype = .dir) :
    ∃ m, w'.fs (R ++ f.path.names) = some (.dir m) ∧ m % 0o10000 = entryDirMode w R rootMode f := by
  obtain ⟨m, hm⟩ := FS.isDir_iff.1 (h.dirs f hf hft)
  refine ⟨m, hm, ?_⟩
  unfold entryDirMode
  split
  · rename_i hnil
    rw [hnil, List.append_nil, h.root_eq hroot, hmode] at hm
    cases hm
    rfl
  · rename_i hnamed
    rcases h.made _ _ (hroot.empty _ hnamed) hm with ⟨m', heq, hmade⟩ | ⟨_, _, _, heq⟩
    · cases heq
      rw [hmade.eq h.inherits hm, Nat.mod_eq_of_lt (dirMode_lt _ _)]
    · cases heq

/-- **When modes survive.** After a successful extraction of files and directories into an empty directory, all have
the modes of their entries exactly when no two files of one place (`a` and `./a`) differ in theirs, the last file of
every place loses no set-ID bit, and every directory was recorded with the mode that a new directory gets. -/
theorem modes_survive_iff (hroot : EmptyRoot w r.root R) {rootMode : Nat} (hmode : w.fs R = some (.dir rootMode))
    (hkind : ∀ f ∈ r.index.files, f.ftype = .file ∨ f.ftype = .dir) {w' : World}
    (h : r.handleFiles K w = (.ok (), w')) :
    ((∀ f ∈ r.index.files, f.ftype = .file → ∃ c m t,
        w'.fs (R ++ f.path.names) = some (.file c m t) ∧ m % 0o10000 = f.permissions % 0o10000) ∧
      ∀ f ∈ r.index.files, f.ftype = .dir → ∃ m,
        w'.fs (R ++ f.path.names) = some (.dir m) ∧ m % 0o10000 = f.permissions % 0o10000) ↔
    (∀ f ∈ r.index.files, f.ftype = .file → ∀ g ∈ r.index.files, g.ftype = .file → g.path.names = f.path.names →
        g.permissions % 0o10000 = f.permissions % 0o10000) ∧
      (∀ f, LastFile r.index.files f → w.process.KeepsMode (r.heldBack f) f.permissions) ∧
      ∀ f ∈ r.index.files, f.ftype = .dir → entryDirMode w R rootMode f = f.permissions % 0o10000 := by
  have hnolink : ∀ f ∈ r.index.files, f.ftype ≠ .symlink := fun f hf hlink => by
    rcases hkind f hf with hft | hft <;> rw [hlink] at hft <;> cases hft
  have hlaid := laid_of_handleFiles hroot hnolink h
  constructor
  · rintro ⟨hfiles, hdirs⟩
    refine ⟨fun f hf hft g hg hgt hsame => ?_, fun f hlast => ?_, fun f hf hft => ?_⟩
    · obtain ⟨c, m, t, hnode, hm⟩ := hfiles f hf hft
      obtain ⟨c', m', t', hnode', hm'⟩ := hfiles g hg hgt
      rw [hsame, hnode] at hnode'
      cases hnode'
      rw [← hm, ← hm']
    · obtain ⟨c, m, t, hnode, hm⟩ := hfiles f hlast.mem hlast.isFile
      obtain ⟨c', t', hnode'⟩ := hlaid.files f hlast
      rw [hnode] at hnode'
      cases hnode'
      rw [Nat.mod_eq_of_lt (fileMode_lt _ _)] at hm
      exact fileMode_eq_iff.1 hm
    · obtain ⟨m, hnode, hm⟩ := hdirs f hf hft
      obtain ⟨m', hnode', hm'⟩ := laid_dirMode hroot hmode hlaid hf hft
      rw [hnode] at hnode'
      cases hnode'
      rw [← hm, ← hm']
  · rintro ⟨hsame, hkeeps, hmodes⟩
    refine ⟨fun f hf hft => ?_, fun f hf hft => ?_⟩
    · obtain ⟨g, hlast, hnames⟩ := exists_lastFile hft _ hf
      obtain ⟨c, t, hnode⟩ := hlaid.files g hlast
      refine ⟨c, _, t, hnames ▸ hnode, ?_⟩
      rw [fileMode_eq_iff.2 (hkeeps g hlast), Nat.mod_mod]
      exact hsame f hf hft g hlast.mem hlast.isFile hnames
    · obtain ⟨m, hnode, hm⟩ := laid_dirMode hroot hmode hlaid hf hft
      exact ⟨m, hnode, hm.trans (hmodes f hf hft)⟩

end ArchiveReader

/-- A set-user-ID file with these bytes. -/
def setuidReader (content : Bytes) : ArchiveReader :=
  { danglingReader with
    reader := [0, 0, 0, 0] ++ content
    header := Header.stored 2
    index := ⟨[{ plainFile "f" 0 content.length with permissions := 0o104755 }], [plainBlock 4 content],
      content.length⟩ }

-- the set-user-ID bit survives when the last write fills a block, and is lost with a byte that is held back
example : ((setuidReader [1, 2]).handleFiles (Crates.tabled [] []) (World.ofDirs [[], ["out"]])).2.fs ["out", "f"]
    = some (.file [1, 2] 0o4755 0) := by decide +kernel
example : ((setuidReader [1]).handleFiles (Crates.tabled [] []) (World.ofDirs [[], ["out"]])).2.fs ["out", "f"]
    = some (.file [1] 0o755 0) := by decide +kernel

/-- A directory, with the mode that `lstat` gives. -/
def dirEntry (name : String) (mode : Nat) : FileEntry :=
  { danglingEntry with path := [.normal name], ftype := .dir, size := 0, permissions := mode }

/-- The directory `d` with this mode, and in it an empty file that only its owner may read. -/
def dirIndex (mode : Nat) : Index where
  files := [dirEntry "d" mode, { emptyFile [.normal "d", .normal "f"] with permissions := 0o100600 }]
  block := []
  totalStreamSize := 0

/-- A directory with the default mode. -/
theorem modes_survive_iff_default :
    let K := Crates.tabled [Header.stored 512] [dirIndex 0o40755]
    let r := blocklessReader (dirIndex 0o40755)
    let w := World.ofDirs [[], ["out"]]
    (r.handleFiles K w).1 = .ok () ∧
      (∀ f ∈ r.index.files, f.ftype = .file → ∃ c m t, (r.handleFiles K w).2.fs (["out"] ++ f.path.names)
        = some (.file c m t) ∧ m % 0o10000 = f.permissions % 0o10000) ∧
      ∀ f ∈ r.index.files, f.ftype = .dir → ∃ m, (r.handleFiles K w).2.fs (["out"] ++ f.path.names)
        = some (.dir m) ∧ m % 0o10000 = f.permissions % 0o10000 := by
  intro K r w
  have hok : (r.handleFiles K w).1 = .ok () := by decide +kernel
  have hplain : ∀ f ∈ r.index.files, f.permissions &&& 0o6000 = 0 := by decide
  exact ⟨hok, (ArchiveReader.modes_survive_iff (K := K) (r := r) emptyRoot_out
    (show w.fs ["out"] = some (.dir 0o755) by decide) (by decide) (Act.run_of_ok hok)).2
    ⟨by decide +kernel, fun f hlast => .plain (hplain f hlast.mem), by decide +kernel⟩⟩

/-- **A private directory is opened to all**: recorded with mode 700, it is extracted with mode 755. -/
theorem private_dir_opened :
    let K := Crates.tabled [Header.stored 512] [dirIndex 0o40700]
    let r := blocklessReader (dirIndex 0o40700)
    let w := World.ofDirs [[], ["out"]]
    ArchiveReader.new K r.reader [] r.root Limits.default ⟨none, none⟩ false = .ok r ∧ EmptyRoot w r.root ["out"] ∧
      (r.handleFiles K w).1 = .ok () ∧ dirEntry "d" 0o40700 ∈ r.index.files ∧
      (r.handleFiles K w).2.fs ["out", "d"] = some (.dir 0o755) ∧ 0o755 ≠ 0o40700 % 0o10000 :=
  ⟨by decide +kernel, emptyRoot_out, by decide +kernel, by decide, by decide +kernel, by decide⟩

end Cryo
