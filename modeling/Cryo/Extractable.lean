import Cryo.Restore
import Cryo.Restriction

/-!
# Appending to an archive that can be extracted

An append drops the paths that are in the archive, whatever they are there, and adds the others. An entry that was
dropped because a file has its name leaves its children behind, below that file.

`Lineage` are the histories of archives whose entries have names (`Lineage.named`). As long as only directories have
other entries below them, the entries stand beside each other, and what can be extracted before an append can be
extracted after it.

* `append_extractable_iff`: where no link stands above another entry, an append keeps an archive extractable, and what
  is extracted of its old entries, exactly when no regular file of the new archive stands above another entry.
* `file_above_added`: a directory with the name of a regular file is skipped, and its children are added.
-/

namespace Cryo

open Posix World Chunk Bytes

variable {K : Crates}

/-! ## Histories of named entries -/

/-- What is there and is no directory has a name at its end. -/
def Os.NamesFiles (os : Os) (isDir : Path → Bool) : Prop :=
  ∀ {p m}, os.symlinkMetadata p = .ok m → isDir p = false → ∃ base n, p = base ++ [.normal n]

/-- The scan of a directory finds what is there. -/
def AppendSetup.Scans (setup : AppendSetup) : Prop :=
  ∀ root files, setup.retrieveAllFiles root = .ok files → ∃ dirs, Finds dirs root files

variable (K) in
/-- A chain in which every path that was added has a name. -/
inductive Lineage : ArchiveWriter → Prop
  | compress {setup : Setup} {env : Env} {args : CompressArgs} {arch : ArchiveWriter} :
    1 ≤ args.bs → args.bs ≤ MAX_BLOCK_SIZE → env.os.Still → setup.Scans → env.os.NamesFiles setup.isDir →
    initializeCompression K setup env args = .ok arch → Lineage arch
  | append {arch arch' : ArchiveWriter} {setup : AppendSetup} {env : Env} {args : AppendArgs} :
    Lineage arch → Unnarrowed K arch → Cipher.new K setup.prompts arch.header args.confirm = .ok arch.cipher →
    env.os.Still → setup.Scans → env.os.NamesFiles setup.isDir →
    appendFile K setup env arch.writer.bytes args = .ok arch' → Lineage arch'

theorem Lineage.chain {arch : ArchiveWriter} (h : Lineage K arch) : Chain K arch := by
  induction h with
  | compress hone hmax hstill hscans _ hrun => exact .compress hone hmax hstill hscans hrun
  | append _ hfits hkey hstill _ _ happ ih => exact .append ih hfits hkey hstill happ

section

variable {os : Os} {root p : Path} {bs : Nat} {src : Source}

/-- A single path is read from its parent. -/
theorem named_of_single {isDir : Path → Bool} {dflt : Path} (hnames : os.NamesFiles isDir) (hdir : isDir p = false)
    (h : observe os (p.parent.getD dflt) bs p = .ok src) : Named src.path := by
  obtain ⟨base, n, rfl⟩ := hnames (observe_ok h).1 hdir
  rw [Path.parent_snoc_normal, Option.getD_some] at h
  exact ⟨[n], by simp, (List.append_cancel_left (observe_path h)).symm⟩

end

/-- **What an append adds** is named. -/
theorem named_of_append {setup : AppendSetup} {os : Os} {files : List FileEntry} {path root p : Path}
    {queue : List Path} {bs : Nat} {src : Source} (hscans : setup.Scans) (hnames : os.NamesFiles setup.isDir)
    (hqueue : queueAppend setup files path = .ok (root, queue)) (hp : p ∈ queue)
    (h : observe os root bs p = .ok src) : Named src.path := by
  unfold queueAppend at hqueue
  split at hqueue
  · obtain ⟨paths, hpaths, hqueue⟩ := Except.bind_eq_ok.1 hqueue
    obtain ⟨rfl, rfl⟩ := Prod.mk.inj (Except.ok.inj hqueue)
    obtain ⟨dirs, hfinds⟩ := hscans _ _ hpaths
    exact named_of_found hfinds (mem_retainNew.1 hp).1 h
  · rename_i hdir
    obtain ⟨rfl, rfl⟩ := Prod.mk.inj (Except.ok.inj hqueue)
    obtain rfl := List.mem_singleton.1 (mem_retainNew.1 hp).1
    exact named_of_single hnames (by simpa using hdir) h

/-- **Every entry of a lineage is named.** -/
theorem Lineage.named (hK : K.Lawful) {arch : ArchiveWriter} (h : Lineage K arch) :
    ∀ e ∈ arch.index.files, Named e.path := by
  induction h with
  | @compress setup env args arch hone hmax hstill hscans hnames hrun =>
    obtain ⟨_, root, queue, _, _, srcs, _, _, hqueue, _, hobs, hmade⟩ := initializeCompression_ok hrun
    intro e he
    rw [hmade.index_eq, List.nil_append] at he
    obtain ⟨src, hsrc, off, rfl⟩ := Source.mem_entries he
    obtain ⟨p, hp, hsrc⟩ := Except.mem_of_mapM_ok (Except.mapM_eq_ok.2 hobs) hsrc
    unfold queueFiles at hqueue
    split at hqueue
    · obtain ⟨files, hfiles, hqueue⟩ := Except.bind_eq_ok.1 hqueue
      obtain ⟨rfl, rfl⟩ := Prod.mk.inj (Except.ok.inj hqueue)
      obtain ⟨dirs, hfinds⟩ := hscans _ _ hfiles
      exact named_of_found hfinds hp hsrc
    · split at hqueue
      · cases hqueue
      · rename_i hdir
        obtain ⟨rfl, rfl⟩ := Prod.mk.inj (Except.ok.inj hqueue)
        obtain rfl := List.mem_singleton.1 hp
        exact named_of_single hnames (by simpa using hdir) hsrc
  | @append arch arch' setup env args hlineage hfits hkey hstill hscans hnames happ ih =>
    obtain ⟨im, raws, hf, _⟩ := hlineage.chain.keeps hK
    obtain ⟨_, _, _, _, _, hload, _⟩ := appendFile_ok happ
    have hs := hf.sizes_of_retrieve hK hfits hload
    obtain ⟨_, _, queue, srcs, _, hqueue, hobs, _, _, _, _, _, hfiles, _⟩ := appendFile_finished hK hf hs hkey happ
    intro e he
    rw [hfiles] at he
    rcases List.mem_append.1 he with he | he
    · exact ih e he
    · obtain ⟨src, hsrc, off, rfl⟩ := Source.mem_entries he
      obtain ⟨p, hp, hsrc⟩ := Except.mem_of_mapM_ok (Except.mapM_eq_ok.2 hobs) hsrc
      exact named_of_append hscans hnames hqueue hp hsrc

/-- Named entries with different paths have different names. -/
theorem nodup_names {files : List FileEntry} (hnamed : ∀ e ∈ files, Named e.path)
    (hnodup : (files.map FileEntry.path).Nodup) : (files.map fun e => e.path.names).Nodup := by
  refine List.pairwise_map.2 ((List.pairwise_map.1 hnodup).imp_of_mem fun {e f} he hf hne heq => hne ?_)
  obtain ⟨ns, _, hns⟩ := hnamed e he
  obtain ⟨ms, _, hms⟩ := hnamed f hf
  rw [hns, hms, Path.names_ofNames, Path.names_ofNames] at heq
  rw [hns, hms, heq]

/-- No entry of the type has another entry below it. -/
def NothingBelow (t : FileType) (files : List FileEntry) : Prop :=
  ∀ f ∈ files, f.ftype = t → ∀ g ∈ files, f.path.names <+: g.path.names → f.path.names = g.path.names

instance (t : FileType) (files : List FileEntry) : Decidable (NothingBelow t files) :=
  inferInstanceAs (Decidable (∀ f ∈ files, f.ftype = t → ∀ g ∈ files, f.path.names <+: g.path.names →
    f.path.names = g.path.names))

/-- The entries of a lineage stand beside each other when only directories have others below them. -/
theorem Lineage.beside (hK : K.Lawful) {arch : ArchiveWriter} (h : Lineage K arch)
    (hfile : NothingBelow .file arch.index.files) (hlink : NothingBelow .symlink arch.index.files) :
    (arch.index.files.map FileEntry.place).Pairwise Beside := by
  obtain ⟨_, _, _, _, hdistinct, _⟩ := h.chain.keeps hK
  refine ArchiveReader.pairwise_beside (nodup_names (h.named hK) hdistinct) fun f hf hdir g hg hpre => ?_
  cases hft : f.ftype with
  | file => exact hfile f hf hft g hg hpre
  | symlink => exact hlink f hf hft g hg hpre
  | dir => exact absurd hft hdir

/-! ## One append -/

variable (K) in
/-- A successful append to an archive of a lineage. -/
structure Appending (arch arch' : ArchiveWriter) (setup : AppendSetup) (env : Env) (args : AppendArgs) : Prop where
  lineage : Lineage K arch
  fits : Unnarrowed K arch
  key : Cipher.new K setup.prompts arch.header args.confirm = .ok arch.cipher
  still : env.os.Still
  scans : setup.Scans
  names : env.os.NamesFiles setup.isDir
  run : appendFile K setup env arch.writer.bytes args = .ok arch'

namespace Appending

variable {arch arch' : ArchiveWriter} {setup : AppendSetup} {env : Env} {args : AppendArgs}

theorem next (h : Appending K arch arch' setup env args) : Lineage K arch' :=
  .append h.lineage h.fits h.key h.still h.scans h.names h.run

/-- What the append adds to the archive: the header and the cipher stay, the stream and the entries grow. -/
theorem finished (hK : K.Lawful) (h : Appending K arch arch' setup env args) :
    ∃ (im im' : Image K) (raws raws' : List Bytes) (root : Path) (queue : List Path) (srcs : List Source),
      Finished arch im raws ∧ Finished arch' im' (raws ++ raws') ∧ arch'.header = arch.header ∧
      arch'.cipher = arch.cipher ∧
      DecompressingEngine.new K arch.header.compression = .ok ⟨arch.header.compression⟩ ∧
      arch.header.blockSize + 16 < 2 ^ 32 ∧ (∀ e ∈ arch.index.files, e.streamOffset + e.size ≤ raws.flatten.length) ∧
      queueAppend setup arch.index.files args.fileToAppend = .ok (root, queue) ∧
      List.Forall₂ (fun p src => observe env.os root arch.header.blockSize p = .ok src) queue srcs ∧
      arch'.index.files = arch.index.files ++ Source.entries arch.index.totalStreamSize srcs := by
  obtain ⟨hmade, _, hmax⟩ := h.lineage.chain.made hK
  have hsmall := Nat.lt_of_le_of_lt (Nat.add_le_add_right hmax 16) (by decide : MAX_BLOCK_SIZE + 16 < 2 ^ 32)
  obtain ⟨im, raws, hf, hengine⟩ := hmade.finished hK (.inl hsmall)
  obtain ⟨_, hinside⟩ := hmade.inside hK (.inl hsmall)
  obtain ⟨_, _, _, _, _, hload, _⟩ := appendFile_ok h.run
  have hs := hf.sizes_of_retrieve hK h.fits hload
  obtain ⟨im', root, queue, srcs, _, hqueue, hobs, hf', _, _, hheader, hcipher, hfiles, _⟩ :=
    appendFile_finished hK hf hs h.key h.run
  exact ⟨im, im', raws, _, root, queue, srcs, hf, hf', hheader, hcipher, hengine, hsmall,
    fun e he => hf.total ▸ hinside e he, hqueue, hobs, hfiles⟩

variable {limits : Limits} {p out : Path}

/-- **An old entry decodes to the same bytes.** -/
theorem decodeEntry (hK : K.Lawful) (h : Appending K arch arch' setup env args) (hoff : arch'.filePosition < 2 ^ 63)
    {e : FileEntry} (he : e ∈ arch.index.files) :
    (arch'.reader p out limits).decodeEntry K e = (arch.reader p out limits).decodeEntry K e := by
  obtain ⟨im, im', raws, raws', _, _, _, hf, hf', hheader, _, hengine, hsmall, hinside, _⟩ := h.finished hK
  rw [hf.decodeEntry hsmall h.fits.offset hengine p out limits e,
    hf'.decodeEntry (hheader ▸ hsmall) hoff (hheader ▸ hengine) p out limits e, List.flatten_append,
    slice_append_left (hinside e he)]

/-- What is left of an old entry is the same. -/
theorem outcome (hK : K.Lawful) (h : Appending K arch arch' setup env args) (hoff : arch'.filePosition < 2 ^ 63)
    {e : FileEntry} (he : e ∈ arch.index.files) (w₀ : World) (R : Loc) :
    (arch'.reader p out limits).outcome K w₀ R e = (arch.reader p out limits).outcome K w₀ R e := by
  obtain ⟨im, im', raws, raws', _, _, _, hf, hf', hheader, _, _, hsmall, hinside, _⟩ := h.finished hK
  have hdec := hf.decoded h.fits.offset (hf.blocks_small hsmall) p out limits
  have hdec' := hf'.decoded hoff (hf'.blocks_small (hheader ▸ hsmall)) p out limits
  have hblocks : (arch'.reader p out limits).index.block.map BlockEntry.sizePlain
      = (arch.reader p out limits).index.block.map BlockEntry.sizePlain ++ raws'.map List.length := by
    rw [← hdec.lengths, ← hdec'.lengths, List.map_append]
  have hin : e.streamOffset + e.size ≤ ((arch.reader p out limits).index.block.map BlockEntry.sizePlain).sum := by
    rw [← hdec.lengths, ← List.length_flatten]
    exact hinside e he
  have hsize : (arch'.reader p out limits).header.blockSize = (arch.reader p out limits).header.blockSize :=
    congrArg Header.blockSize hheader
  unfold ArchiveReader.outcome
  rw [h.decodeEntry hK hoff he, ArchiveReader.fileMode_append hblocks hsize hin]

/-- A good entry stays good. -/
theorem good (hK : K.Lawful) (h : Appending K arch arch' setup env args) (hoff : arch'.filePosition < 2 ^ 63)
    {w₀ : World} {R : Loc} {e : FileEntry} (he : e ∈ arch.index.files)
    (hgood : (arch.reader p out limits).Good K w₀ R e) :
    (arch'.reader p out limits).Good K w₀ R e := by
  obtain ⟨_, _, _, _, _, _, _, _, _, hheader, _⟩ := h.finished hK
  refine ⟨hgood.safe, hgood.size, hgood.range, hgood.named, hgood.link, fun hft => ?_⟩
  obtain ⟨hdecode, hbuffer, htime⟩ := hgood.file hft
  refine ⟨?_, ?_, htime⟩
  · rw [h.decodeEntry hK hoff he]
    exact hdecode
  · show arch'.header.blockSize < 2 ^ 63
    rw [hheader]
    exact hbuffer

/-- **What could be extracted can be extracted after the append**, and comes out the same, as long as only directories
have other entries below them. -/
theorem extracts (hK : K.Lawful) (h : Appending K arch arch' setup env args) (hoff : arch'.filePosition < 2 ^ 63)
    (hsize : ∀ e ∈ arch'.index.files, e.size ≤ limits.effMaxFile ∧ e.streamOffset + e.size < 2 ^ 64)
    (htime : env.os.Timed) (hfile : NothingBelow .file arch'.index.files)
    (hlink : NothingBelow .symlink arch'.index.files) {w w' : World} {R : Loc} (hvacant : w.Vacant out R)
    (hinside : ∀ root queue, queueAppend setup arch.index.files args.fileToAppend = .ok (root, queue) →
      env.os.LeadInside root queue R)
    (hold : (arch.reader p out limits).handleFiles K w = (.ok (), w')) :
    ∃ w'', (arch'.reader p out limits).handleFiles K w = (.ok (), w'') ∧
      ∀ e ∈ arch.index.files, w''.fs (R ++ e.path.names) = w'.fs (R ++ e.path.names) := by
  obtain ⟨im, im', raws, raws', root, queue, srcs, hf, hf', hheader, _, hengine, hsmall, _, hqueue, hobs, hfiles⟩ :=
    h.finished hK
  have hbeside' := h.next.beside hK hfile hlink
  have hsub : arch.index.files <+: arch'.index.files := hfiles ▸ List.prefix_append _ _
  have hbeside : (arch.index.files.map FileEntry.place).Pairwise Beside :=
    hbeside'.sublist (hsub.sublist.map FileEntry.place)
  obtain ⟨w₀, hstart⟩ := ArchiveReader.exists_started hvacant
  obtain ⟨hgood, hgrown⟩ := (Act.of_wp (ArchiveReader.wp_handleFiles_iff (K := K) (r := arch.reader p out limits) hstart
    hbeside)).1 () hold
  have hgood' : ∀ e ∈ arch'.index.files, (arch'.reader p out limits).Good K w₀ R e := fun e he => by
    have hfit := hsize e he
    rw [hfiles] at he
    rcases List.mem_append.1 he with he | he
    · exact h.good hK hoff he (hgood e he)
    · obtain ⟨src, hsrc, off, rfl⟩ := Source.mem_entries he
      obtain ⟨q, hq, hsrc⟩ := Except.mem_of_mapM_ok (Except.mapM_eq_ok.2 hobs) hsrc
      have hbuffer : arch'.header.blockSize < 2 ^ 63 := by
        rw [hheader]
        omega
      exact good_of_observed htime (hinside root queue hqueue) hq hsrc (named_of_append h.scans h.names hqueue hq hsrc)
        hfit.1 hfit.2 ⟨_, hf'.decodeEntry (hheader ▸ hsmall) hoff (hheader ▸ hengine) p out limits _⟩ hbuffer
  obtain ⟨_, w'', hnew, _, hgrown'⟩ := Act.exists_ok (Act.wp_mono (ArchiveReader.wp_handleFiles_iff (K := K)
    (r := arch'.reader p out limits) hstart hbeside') (fun _ _ h => h) fun _ _ hbad => hbad hgood')
  refine ⟨w'', hnew, fun e he => ?_⟩
  have hne : e.path.names ≠ [] := by
    obtain ⟨ns, hns, hpath⟩ := h.lineage.named hK e he
    rw [hpath, Path.names_ofNames]
    exact hns
  obtain ⟨x, hx, hfs⟩ := hgrown.made e he hne
  obtain ⟨y, hy, hfs'⟩ := hgrown'.made e (hsub.subset he) hne
  rw [h.outcome hK hoff he, hx] at hy
  rw [hfs, hfs', Option.some.inj hy]

end Appending

/-- Entries beside each other: nothing stands below a regular file. -/
theorem nothingBelow_of_beside {files : List FileEntry} {t : FileType} (ht : t ≠ .dir)
    (h : (files.map FileEntry.place).Pairwise Beside) : NothingBelow t files := by
  intro f hf hft g hg hpre
  by_contra hne
  have : Std.Symm fun e f : FileEntry => Beside e.place f.place := ⟨fun _ _ hb => ⟨hb.2, hb.1⟩⟩
  have hbeside := (List.pairwise_map.1 h).forall hf hg fun heq => hne (by rw [heq])
  exact hbeside.1 (show f.ftype ≠ .dir from hft ▸ ht) hpre

/-- **When an append keeps an archive extractable.** An archive that could be extracted into an empty directory, to
which a tree with links inside it was appended: of the archives in which no link stands above another entry, exactly
those can be extracted, and leave of the old entries what they left before, in which no regular file does. -/
theorem append_extractable_iff (hK : K.Lawful) {arch arch' : ArchiveWriter} {setup : AppendSetup} {env : Env}
    {args : AppendArgs} (h : Appending K arch arch' setup env args) {limits : Limits} (hs : Sizes K limits arch)
    (hs' : Sizes K limits arch')
    (hsize : ∀ e ∈ arch'.index.files, e.size ≤ limits.effMaxFile ∧ e.streamOffset + e.size < 2 ^ 64)
    (htime : env.os.Timed) {prompts : Prompts} {confirm : Bool}
    (hkey : Cipher.new K prompts arch.header confirm = .ok arch.cipher)
    (hlink : NothingBelow .symlink arch'.index.files) (p out : Path) :
    ∃ r r', ArchiveReader.new K arch.writer.bytes p out limits prompts confirm = .ok r ∧
      ArchiveReader.new K arch'.writer.bytes p out limits prompts confirm = .ok r' ∧
      ∀ w R w', World.Vacant w out R →
        (∀ root queue, queueAppend setup arch.index.files args.fileToAppend = .ok (root, queue) →
          env.os.LeadInside root queue R) → r.handleFiles K w = (.ok (), w') →
        ((∃ w'', r'.handleFiles K w = (.ok (), w'') ∧
          ∀ e ∈ arch.index.files, w''.fs (R ++ e.path.names) = w'.fs (R ++ e.path.names)) ↔
            NothingBelow .file arch'.index.files) := by
  obtain ⟨im, im', raws, raws', _, _, _, hf, hf', hheader, hcipher, _⟩ := h.finished hK
  have hkey' : Cipher.new K prompts arch'.header confirm = .ok arch'.cipher := by rw [hheader, hcipher]; exact hkey
  refine ⟨_, _, hf.new_reader hK hs hkey p out, hf'.new_reader hK hs' hkey' p out,
    fun w R w' hvacant hinside hold => ?_⟩
  constructor
  · rintro ⟨w'', hnew, _⟩
    by_contra hfile
    obtain ⟨_, _, _, _, hdistinct, _⟩ := h.next.chain.keeps hK
    have hnamed := h.next.named hK
    refine ArchiveReader.handleFiles_blocked (r := arch'.reader p out limits) hvacant (fun e he => ?_)
      (nodup_names hnamed hdistinct) hlink (fun hbeside => hfile (nothingBelow_of_beside (by simp) hbeside)) hnew
    obtain ⟨ns, hns, hpath⟩ := hnamed e he
    rw [hpath, Path.names_ofNames]
    exact hns
  · exact fun hfile => h.extracts hK hs'.offset hsize htime hfile hlink hvacant hinside hold

/-! ## A directory appended to an archive with a file -/

/-- The directory `src`, and the directory `a` in it. -/
def Dirs.nested (top sub : List DirEntry) (htop : (top.map DirEntry.fileName).Nodup)
    (hsub : (sub.map DirEntry.fileName).Nodup) : Dirs where
  readDir p :=
    if p = [.normal "src"] then .ok top else if p = [.normal "src", .normal "a"] then .ok sub else .error .noent
  distinct {dir names} h := by
    split at h
    · cases h
      exact htop
    · split at h
      · cases h
        exact hsub
      · cases h

/-- The scan of `src` found `files`. -/
def AppendSetup.scanned (files : List Path) : AppendSetup :=
  { AppendSetup.plain files with
    retrieveAllFiles := fun root => if root = [.normal "src"] then .ok files else .error .invalidPath }

theorem AppendSetup.scanned_scans {files : List Path} (dirs : Dirs) (h : Finds dirs [.normal "src"] files) :
    (AppendSetup.scanned files).Scans := by
  intro root found hfound
  unfold AppendSetup.scanned at hfound
  dsimp only at hfound
  split at hfound
  · rename_i hroot
    cases hfound
    exact ⟨dirs, hroot ▸ h⟩
  · cases hfound

theorem Os.ofFiles_namesFiles {files : List (Path × Nat × Bytes)} {isDir : Path → Bool}
    (h : ∀ f ∈ files, ∃ base n, f.1 = base ++ [.normal n]) : (Os.ofFiles files).NamesFiles isDir := by
  intro p m hm _
  unfold Os.ofFiles at hm
  dsimp only at hm
  cases hfind : files.find? (·.1 = p) with
  | none =>
    rw [hfind] at hm
    cases hm
  | some f =>
    obtain rfl : f.1 = p := by simpa using List.find?_some hfind
    exact h f (List.mem_of_find?_eq_some hfind)

/-- The file `src/a`, three bytes, alone in an archive with blocks of two bytes. -/
theorem exists_single {K : Crates} (hvec : K.headerToVec (Header.stored 2) = some [])
    (hindex : K.indexToVec indexOfA = some [])
    (hrun : (initializeCompression K Setup.single
        (Env.plain (Os.ofFiles [([.normal "src", .normal "a"], 3, [1, 2, 3])]))
        { CompressArgs.single with bs := 2 }).toOption.map ArchiveWriter.shown =
      some ([0, 0, 0, 0] ++ [1, 2, 3] ++ List.replicate 0 0 ++
        Footer.serialize ⟨7, 0, 0, false, Vector.replicate 12 0⟩, indexOfA, 7, Header.stored 2, .none)) :
    ∃ arch : ArchiveWriter, Lineage K arch ∧ Sizes K Limits.default arch ∧
      arch.shown = ([0, 0, 0, 0] ++ [1, 2, 3] ++ List.replicate 0 0 ++
        Footer.serialize ⟨7, 0, 0, false, Vector.replicate 12 0⟩, indexOfA, 7, Header.stored 2, .none) := by
  obtain ⟨arch, hmade, hshown⟩ := Except.exists_of_toOption_map hrun
  refine ⟨arch, .compress (by decide) (by decide) (Os.ofFiles_still (by decide)) (fun _ _ h => by cases h)
    (Os.ofFiles_namesFiles fun f hf => ?_) hmade, sizes_of_shown hshown hvec hindex (by decide) (by decide), hshown⟩
  obtain rfl := List.mem_singleton.1 hf
  exact ⟨[.normal "src"], "a", rfl⟩

/-- A file is appended beside another one. -/
theorem append_extractable_iff_beside :
    let K := Crates.tabled [Header.stored 2] [indexOfA, indexOfAB]
    let w := World.ofDirs [[], ["out"]]
    ∃ (arch arch' : ArchiveWriter) (r r' : ArchiveReader) (w' w'' : World),
      arch.index = indexOfA ∧ arch'.index = indexOfAB ∧
      ArchiveReader.new K arch.writer.bytes [] [.rootDir, .normal "out"] Limits.default ⟨none, none⟩ false = .ok r ∧
      ArchiveReader.new K arch'.writer.bytes [] [.rootDir, .normal "out"] Limits.default ⟨none, none⟩ false = .ok r' ∧
      r.handleFiles K w = (.ok (), w') ∧ r'.handleFiles K w = (.ok (), w'') ∧
      ∀ e ∈ arch.index.files, w''.fs (["out"] ++ e.path.names) = w'.fs (["out"] ++ e.path.names) := by
  intro K w
  let a : Path := [.normal "src", .normal "a"]
  let b : Path := [.normal "src", .normal "b"]
  let files : List (Path × Nat × Bytes) := [(a, 3, [1, 2, 3]), (b, 2, [4, 5])]
  let dirs := Dirs.nested [⟨"a", .ok .file⟩, ⟨"b", .ok .file⟩] [] (by decide) (by decide)
  obtain ⟨arch, hlineage, hs, hshown⟩ := exists_single (K := K) (by decide +kernel) (by decide +kernel)
    (by decide +kernel)
  unfold ArchiveWriter.shown at hshown
  simp only [Prod.mk.injEq] at hshown
  obtain ⟨hbytes, hindex, _, hheader, hcipher⟩ := hshown
  obtain ⟨arch', happend, hshown'⟩ := Except.exists_of_toOption_map (f := ArchiveWriter.shown)
    (x := appendFile K (AppendSetup.scanned [a, b]) (Env.plain (Os.ofFiles files)) arch.writer.bytes AppendArgs.plain)
    (b := ([0, 0, 0, 0] ++ [1, 2, 3, 4, 5] ++ List.replicate 1 0 ++
      Footer.serialize ⟨9, 1, 1, false, Vector.replicate 12 0⟩, indexOfAB, 9, Header.stored 2, .none))
    (by rw [hbytes]; decide +kernel)
  have hs' : Sizes K Limits.default arch' :=
    sizes_of_shown hshown' (by decide +kernel) (by decide +kernel) (by decide) (by decide)
  unfold ArchiveWriter.shown at hshown'
  simp only [Prod.mk.injEq] at hshown'
  obtain ⟨_, hindex', _⟩ := hshown'
  have hkey : Cipher.new K ⟨none, none⟩ arch.header false = .ok arch.cipher := by rw [hheader, hcipher]; rfl
  have hnames : ∀ f ∈ files, ∃ base n, f.1 = base ++ [.normal n] := by
    intro f hf
    rcases List.mem_cons.1 hf with rfl | hf
    · exact ⟨[.normal "src"], "a", rfl⟩
    · obtain rfl := List.mem_singleton.1 hf
      exact ⟨[.normal "src"], "b", rfl⟩
  have happending : Appending K arch arch' (AppendSetup.scanned [a, b]) (Env.plain (Os.ofFiles files))
      AppendArgs.plain := {
    lineage := hlineage
    fits := hs.unnarrowed
    key := hkey
    still := Os.ofFiles_still (by decide)
    scans := AppendSetup.scanned_scans dirs ⟨2, by decide +kernel⟩
    names := Os.ofFiles_namesFiles hnames
    run := happend }
  have htime : (Os.ofFiles files).Timed := by
    intro p m hm
    unfold Os.ofFiles at hm
    dsimp only at hm
    split at hm
    · cases hm
      exact ⟨Int.le_refl 0, (by decide : (0 : Int) < 2 ^ 63)⟩
    · cases hm
  obtain ⟨r, r', hnew, hnew', hiff⟩ := append_extractable_iff (Crates.tabled_lawful _ _) happending hs hs'
    (by rw [hindex']; decide) htime hkey (by rw [hindex']; decide) [] [.rootDir, .normal "out"]
  obtain ⟨r₀, hnew₀, hok⟩ := Except.exists_of_toOption_map (f := fun r => (r.handleFiles K w).1)
    (x := ArchiveReader.new K arch.writer.bytes [] [.rootDir, .normal "out"] Limits.default ⟨none, none⟩ false)
    (b := .ok ()) (by rw [hbytes]; decide +kernel)
  obtain rfl : r = r₀ := Except.ok.inj (hnew.symm.trans hnew₀)
  have hroot : w.Vacant [.rootDir, .normal "out"] ["out"] :=
    ⟨fun _ => rfl, by decide +kernel, .inl (by decide), fun ns hns => by simp [w, World.ofDirs, hns]⟩
  have hlinks : ∀ root queue, (Os.ofFiles files).LeadInside root queue ["out"] := by
    intro root queue ns m t _ _ _ ht
    cases ht
  obtain ⟨w'', hok'', hsame⟩ := (hiff w _ _ hroot (fun root queue _ => hlinks root queue) (Act.run_of_ok hok)).2
    (by rw [hindex']; decide)
  exact ⟨arch, arch', r, r', _, w'', hindex, hindex', hnew, hnew', Act.run_of_ok hok, hok'', hsame⟩

/-- The index after the directory `a` was appended, with `b` in it. -/
def indexOfNested : Index :=
  { indexOfAB with files := indexOfA.files ++ [{ plainFile "b" 3 2 with path := [.normal "a", .normal "b"] }] }

/-- The directory `src/a` and the file `src/a/b`. -/
def nestedOs : Os :=
  { Os.ofFiles [([.normal "src", .normal "a", .normal "b"], 2, [4, 5])] with
    symlinkMetadata := fun p =>
      if p = [.normal "src", .normal "a"] then .ok ⟨.dir, 4096, 0, 0o755⟩
      else if p = [.normal "src", .normal "a", .normal "b"] then .ok ⟨.file, 2, 0, 0o644⟩ else .error .noent }

/-- **A file above what is added**: the directory `a` is skipped, as the archive has a file `a`, and `a/b` is added.
What could be extracted before cannot be extracted any more. -/
theorem file_above_added :
    let K := Crates.tabled [Header.stored 2] [indexOfA, indexOfNested]
    let w := World.ofDirs [[], ["out"]]
    let a : Path := [.normal "src", .normal "a"]
    let ab : Path := [.normal "src", .normal "a", .normal "b"]
    let setup := AppendSetup.scanned [a, ab]
    ∃ (arch arch' : ArchiveWriter) (r r' : ArchiveReader),
      Appending K arch arch' setup (Env.plain nestedOs) AppendArgs.plain ∧
      arch.index = indexOfA ∧ arch'.index = indexOfNested ∧
      ArchiveReader.new K arch.writer.bytes [] [.rootDir, .normal "out"] Limits.default ⟨none, none⟩ false = .ok r ∧
      ArchiveReader.new K arch'.writer.bytes [] [.rootDir, .normal "out"] Limits.default ⟨none, none⟩ false = .ok r' ∧
      (r.handleFiles K w).1 = .ok () ∧ (r'.handleFiles K w).1 = .error (.err .writeError) := by
  intro K w a ab setup
  let dirs := Dirs.nested [⟨"a", .ok .dir⟩] [⟨"b", .ok .file⟩] (by decide) (by decide)
  obtain ⟨arch, hlineage, hs, hshown⟩ := exists_single (K := K) (by decide +kernel) (by decide +kernel)
    (by decide +kernel)
  unfold ArchiveWriter.shown at hshown
  simp only [Prod.mk.injEq] at hshown
  obtain ⟨hbytes, hindex, _, hheader, hcipher⟩ := hshown
  obtain ⟨arch', happend, hshown'⟩ := Except.exists_of_toOption_map
    (f := fun arch' => (arch'.index, (ArchiveReader.new K arch'.writer.bytes [] [.rootDir, .normal "out"] Limits.default
      ⟨none, none⟩ false).toOption.map fun r => (r.handleFiles K w).1))
    (x := appendFile K setup (Env.plain nestedOs) arch.writer.bytes AppendArgs.plain)
    (b := (indexOfNested, some (.error (.err .writeError)))) (by rw [hbytes]; decide +kernel)
  obtain ⟨hindex', hr'⟩ := Prod.mk.inj hshown'
  obtain ⟨r', hnew', hblocked⟩ := Except.exists_of_toOption_map hr'
  obtain ⟨r, hnew, hok⟩ := Except.exists_of_toOption_map (f := fun r => (r.handleFiles K w).1)
    (x := ArchiveReader.new K arch.writer.bytes [] [.rootDir, .normal "out"] Limits.default ⟨none, none⟩ false)
    (b := .ok ()) (by rw [hbytes]; decide +kernel)
  have hstill : nestedOs.Still := by
    have hfiles : (Os.ofFiles [(ab, 2, [4, 5])]).Still := Os.ofFiles_still (by decide)
    intro p m f hm hft hf n hn hlt
    unfold nestedOs at hm
    dsimp only at hm
    split at hm
    · cases hm
      cases hft
    · split at hm
      · rename_i hp
        refine hfiles ?_ hft hf n hn hlt
        cases hm
        rw [hp]
        rfl
      · cases hm
  have hnames : nestedOs.NamesFiles setup.isDir := by
    intro p m _ hdir
    cases hdir
  exact ⟨arch, arch', r, r', {
    lineage := hlineage
    fits := hs.unnarrowed
    key := by rw [hheader, hcipher]; rfl
    still := hstill
    scans := AppendSetup.scanned_scans dirs ⟨2, by decide +kernel⟩
    names := hnames
    run := happend }, hindex, hindex', hnew, hnew', hok, hblocked⟩

end Cryo
