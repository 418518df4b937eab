import Cryo.Extract
import Mathlib.Data.UInt

/-!
# Decompressing

`initialize_decompression` of `decompress.rs`: the five `--max-*` flags become the limits of the reader, the filter is
compiled, the arguments are checked, the archive is opened and the entries that the filter keeps are extracted. What is
asked of the surroundings is the number of entries of the output directory, the compiled filter (a crate's) and the
password.

The limits matter to the loader and to the size check of an entry, and nowhere else (`handleFiles_withLimits`,
`retrieve_raised`).

* `raised_flags_iff`: when a run that succeeds still succeeds under flags that are all at least as high.
* `raised_flag_rejects`: a run that does not, since the flag for the memory cost is cut to 32 bits.
-/

namespace Cryo

open Posix Bytes

/-- A byte size as given on the command line. -/
abbrev Flag := Option UInt64

structure DecompressArgs where
  archive : Path
  output : Path
  maxFileSize : Flag
  maxBlockSize : Flag
  maxMCost : Flag
  maxIndexSize : Flag
  maxHeaderSize : Flag
  filter : List String
  confirm : Bool

/-- The limits that the flags set: the memory cost is counted in KiB and narrowed. -/
def DecompressArgs.limits (args : DecompressArgs) : Limits where
  maxFileSize := args.maxFileSize.map UInt64.toNat
  maxBlockSize := args.maxBlockSize.map UInt64.toNat
  maxMCost := args.maxMCost.map fun maxM => u32 (maxM.toNat / 1024)
  maxIndexSize := args.maxIndexSize.map UInt64.toNat
  maxHeaderSize := args.maxHeaderSize.map UInt64.toNat

/-- What a decompression asks of its surroundings: how many entries a directory has, the compiled filter, none when a
pattern is invalid, and the password. -/
structure DecompressSetup where
  countDir : Path → Except Errno Nat
  compileFilter : List String → Option (Path → Bool)
  prompts : Prompts

def buildMatcher (setup : DecompressSetup) (patterns : List String) : Result (Path → Bool) :=
  (setup.compileFilter patterns).elim (.error .invalidPattern) .ok

/-- A question about a path; an error counts as no. -/
def asks (x : OsM Bool) : ExtractM Bool := Act.tryCatch x fun _ => pure false

/-- A component as it is printed. -/
def showComponent : Component → String
  | .rootDir => ""
  | .curDir => "."
  | .parentDir => ".."
  | .normal n => n

/-- `Path::display`. -/
def display (p : Path) : String := if p = [.rootDir] then "/" else "/".intercalate (p.map showComponent)

def checkDecompressionForArgErr (setup : DecompressSetup) (arv out : Path) : ExtractM Unit := do
  liftResult (failIf (out.parent = none) (.initializationError "Parent directory for output doesn't exist"))
  if ← asks (pathExists out) then
    if ← asks (pathIsDir out) then
      let count ← liftResult (ioFailed out (setup.countDir out))
      liftResult (failIf (count ≠ 0) (.initializationError
        "Output directory is not empty (empty directory or new path required)"))
  let archiveExists ← asks (pathExists arv)
  liftResult (failIf (archiveExists = false) (.initializationError ("Archive not found: " ++ display arv)))
  let archiveIsFile ← asks (pathIsFile arv)
  liftResult (failIf (archiveIsFile = false) (.initializationError
    ("'" ++ display arv ++ "' exists but is not a file")))

variable (K : Crates)

/-- The reader with the entries that are kept. -/
def ArchiveReader.filtered (r : ArchiveReader) (keep : FileEntry → Bool) : ArchiveReader :=
  { r with index := { r.index with files := r.index.files.filter keep } }

/-- `File::open` and `ArchiveReader::new` on what it opens. -/
def openReader (setup : DecompressSetup) (args : DecompressArgs) (limits : Limits) : ExtractM ArchiveReader := do
  let bytes ← Act.mapErr (fun e => .err (.readFailed args.archive e)) (openFile args.archive)
  liftResult (ArchiveReader.new K bytes args.archive args.output limits setup.prompts args.confirm)

def initializeDecompression (setup : DecompressSetup) (args : DecompressArgs) : ExtractM Unit := do
  let filter ← liftResult (buildMatcher setup args.filter)
  checkDecompressionForArgErr setup args.archive args.output
  let arch ← openReader K setup args args.limits
  (arch.filtered fun f => args.filter.isEmpty || filter f.path).handleFiles K

/-! ## Other limits -/

/-- The reader under other limits. -/
def ArchiveReader.withLimits (r : ArchiveReader) (l : Limits) : ArchiveReader := { r with limits := l }

/-- The five limits in force are at least as high, the memory cost apart. -/
structure Limits.Raised (l l' : Limits) : Prop where
  block : l.effMaxBlock ≤ l'.effMaxBlock
  file : l.effMaxFile ≤ l'.effMaxFile
  index : l.effMaxIndex ≤ l'.effMaxIndex
  header : l.effMaxHeader ≤ l'.effMaxHeader

variable {K} {l l' : Limits}

section Loading

variable {f : Bytes} {p : Path}

/-- A header that was accepted is accepted under raised limits when its memory cost is. -/
theorem retrieveHeader_raised (hr : l.Raised l') {h : Header} (hret : retrieveHeader K f p l = .ok h) :
    retrieveHeader K f p l' = .ok h ↔ h.argonParams.1 ≤ l'.effMaxM := by
  constructor
  · intro h'
    obtain ⟨_, _, _, _, _, _, _, _, hcost⟩ := retrieveHeader_ok.1 h'
    exact hcost
  · intro hcost
    obtain ⟨size, headerBytes, hsize, hlimit, hbytes, hdecode, hmeta, hblock, _⟩ := retrieveHeader_ok.1 hret
    exact retrieveHeader_ok.2 ⟨size, headerBytes, hsize, Nat.le_trans hlimit hr.header, hbytes, hdecode, hmeta,
      Nat.le_trans hblock hr.block, hcost⟩

theorem retrieveFooter_raised (hr : l.Raised l') {footer : Footer} (hret : retrieveFooter f p l = .ok footer) :
    retrieveFooter f p l' = .ok footer := by
  obtain ⟨pos, bytes, hpos, hbytes, hdecode, hstored, hplain⟩ := retrieveFooter_ok.1 hret
  exact retrieveFooter_ok.2 ⟨pos, bytes, hpos, hbytes, hdecode, Nat.le_trans hstored hr.index,
    Nat.le_trans hplain hr.index⟩

/-- **An archive that was loaded** is loaded under raised limits when its memory cost is accepted. -/
theorem retrieve_raised (hr : l.Raised l') {prompts : Prompts} {confirm : Bool} {s : FileStructs}
    (hret : retrieve K f p l prompts confirm = .ok s) :
    retrieve K f p l' prompts confirm = .ok s ↔ s.header.argonParams.1 ≤ l'.effMaxM := by
  obtain ⟨hheader, hfooter, hcipher, hindex⟩ := retrieve_ok.1 hret
  rw [← retrieveHeader_raised hr hheader, retrieve_ok]
  exact ⟨fun h => h.1, fun h => ⟨h, retrieveFooter_raised hr hfooter, hcipher, hindex⟩⟩

end Loading

namespace ArchiveReader

variable {r : ArchiveReader}

theorem extractBlocks_withLimits (a b : Nat) (engine : DecompressingEngine) :
    ∀ blocks : List ((Nat × Nat) × Nat),
      (r.withLimits l).extractBlocks K a b engine blocks = r.extractBlocks K a b engine blocks
  | [] => rfl
  | ((start, stop), i) :: rest => by
    unfold extractBlocks
    rw [show (r.withLimits l).index = r.index from rfl]
    cases r.index.block[i]? with
    | none => rfl
    | some block =>
      dsimp only
      split
      · rfl
      · congr 1
        funext piece
        congr 1
        funext _
        exact extractBlocks_withLimits a b engine rest

/-- One entry extracted under limits that allow its size. -/
theorem extractFile_withLimits (hfile : r.limits.effMaxFile ≤ l.effMaxFile) (f : FileEntry) (outDir : Path)
    (blocks : List (Nat × Nat)) :
    Act.Below (r.extractFile K f outDir blocks) ((r.withLimits l).extractFile K f outDir blocks) := by
  unfold extractFile
  refine Act.Below.bind (Act.Below.lift fun stop h => ?_) fun stop => Act.Below.bind (Act.Below.refl _) fun _ => ?_
  · obtain ⟨_, hsize, h⟩ := Except.bind_eq_ok.1 (Except.mapError_eq_ok.1 h)
    have hsize' := Nat.not_lt.2 (Nat.le_trans (Nat.not_lt.1 (failIf_ok.1 hsize)) hfile)
    exact Except.mapError_eq_ok.2 (Except.bind_eq_ok.2 ⟨(), failIf_neg hsize', h⟩)
  · cases f.ftype with
    | dir => exact Act.Below.refl _
    | symlink => exact Act.Below.refl _
    | file =>
      show Act.Below (r.extractRegular K f stop outDir blocks) ((r.withLimits l).extractRegular K f stop outDir blocks)
      unfold extractRegular writeRegular
      simp only [extractBlocks_withLimits]
      exact Act.Below.refl _

theorem extractEntries_withLimits (hfile : r.limits.effMaxFile ≤ l.effMaxFile) (blocks : List (Nat × Nat)) :
    ∀ files : List FileEntry,
      Act.Below (r.extractEntries K blocks files) ((r.withLimits l).extractEntries K blocks files)
  | [] => Act.Below.refl _
  | f :: files => by
    unfold extractEntries extractEntry
    exact Act.Below.bind (Act.Below.bind (Act.Below.refl _) fun outDir => extractFile_withLimits hfile f outDir blocks)
      fun _ => extractEntries_withLimits hfile blocks files

/-- **What is extracted under some limits** is extracted under higher ones. -/
theorem handleFiles_withLimits (hfile : r.limits.effMaxFile ≤ l.effMaxFile) :
    Act.Below (r.handleFiles K) ((r.withLimits l).handleFiles K) := by
  unfold handleFiles
  exact Act.Below.bind (Act.Below.refl _) fun _ => extractEntries_withLimits hfile _ _

end ArchiveReader

/-! ## Raising the flags -/

/-- The bytes that a flag stands for, when an absent one stands for `default`. -/
def Flag.bytes (flag : Flag) (default : Nat) : Nat := (flag.map UInt64.toNat).getD default

/-- Every flag of `args'` is at least the same flag of `args`, and nothing else differs. -/
structure DecompressArgs.Raises (args args' : DecompressArgs) : Prop where
  archive : args'.archive = args.archive
  output : args'.output = args.output
  filter : args'.filter = args.filter
  confirm : args'.confirm = args.confirm
  fileSize : Flag.bytes args.maxFileSize MAX_FILE_SIZE ≤ Flag.bytes args'.maxFileSize MAX_FILE_SIZE
  blockSize : Flag.bytes args.maxBlockSize MAX_BLOCK_SIZE ≤ Flag.bytes args'.maxBlockSize MAX_BLOCK_SIZE
  mCost : Flag.bytes args.maxMCost (MAX_M_COST * 1024) ≤ Flag.bytes args'.maxMCost (MAX_M_COST * 1024)
  indexSize : Flag.bytes args.maxIndexSize MAX_INDEX_SIZE ≤ Flag.bytes args'.maxIndexSize MAX_INDEX_SIZE
  headerSize : Flag.bytes args.maxHeaderSize MAX_HEADER_SIZE ≤ Flag.bytes args'.maxHeaderSize MAX_HEADER_SIZE

theorem DecompressArgs.Raises.limits {args args' : DecompressArgs} (h : args.Raises args') :
    args.limits.Raised args'.limits := ⟨h.blockSize, h.fileSize, h.indexSize, h.headerSize⟩

variable (K) in
/-- The header at the start of an archive. -/
def headerOf (f : Bytes) : Option Header := K.headerFromSlice (slice 4 (leVal (slice 0 4 f)) f)

theorem headerOf_retrieve {f : Bytes} {p : Path} {h : Header} (hret : retrieveHeader K f p l = .ok h) :
    headerOf K f = some h := by
  obtain ⟨size, headerBytes, hsize, _, hbytes, hdecode, _⟩ := retrieveHeader_ok.1 hret
  have slice_of_read : ∀ {off len : Nat} {b : Bytes}, readAt f off len = .ok b → slice off len f = b := by
    intro off len b h
    unfold readAt at h
    split at h
    · exact Except.ok.inj h
    · cases h
  unfold headerOf
  rw [slice_of_read hsize, slice_of_read hbytes, hdecode]

/-- What a reader was loaded from. -/
theorem ArchiveReader.new_ok {f : Bytes} {p out : Path} {prompts : Prompts} {confirm : Bool} {r : ArchiveReader} :
    ArchiveReader.new K f p out l prompts confirm = .ok r ↔ ∃ s, retrieve K f p l prompts confirm = .ok s ∧
      r = ⟨out, p, f, s.index, s.header, s.cipher, l⟩ := by
  unfold ArchiveReader.new
  rw [Except.bind_eq_ok]
  constructor
  · rintro ⟨s, hs, h⟩
    cases h
    exact ⟨s, hs, rfl⟩
  · rintro ⟨s, hs, rfl⟩
    exact ⟨s, hs, rfl⟩

/-- Looking at a path changes nothing in the file system. -/
theorem keeps_asks {P : World → Prop} {x : OsM Bool} (hx : ∀ w, (x w).2 = w.tick) (hP : ∀ w, P w → P w.tick) :
    Act.Keeps P (asks x) :=
  Act.keeps_of_snd fun w hw => (show (asks x w).2 = w.tick from tryCatch_looks (hx w)) ▸ hP w hw

/-- Nor does checking the arguments. -/
theorem keeps_check {P : World → Prop} (hP : ∀ w, P w → P w.tick) (setup : DecompressSetup) (arv out : Path) :
    Act.Keeps P (checkDecompressionForArgErr setup arv out) := by
  unfold checkDecompressionForArgErr
  refine Act.keeps_bind (Act.keeps_lift _) fun _ => ?_
  have hrest : Act.Keeps P (do
      let archiveExists ← asks (pathExists arv)
      liftResult (failIf (archiveExists = false) (.initializationError ("Archive not found: " ++ display arv)))
      let archiveIsFile ← asks (pathIsFile arv)
      liftResult (failIf (archiveIsFile = false) (.initializationError
        ("'" ++ display arv ++ "' exists but is not a file"))) : ExtractM Unit) :=
    Act.keeps_bind (keeps_asks (pathExists_looks arv) hP) fun _ => Act.keeps_bind (Act.keeps_lift _) fun _ =>
      Act.keeps_bind (keeps_asks (pathIsFile_looks arv) hP) fun _ => Act.keeps_lift _
  refine Act.keeps_bind (keeps_asks (pathExists_looks out) hP) fun there => ?_
  cases there with
  | false => exact hrest
  | true =>
    refine Act.keeps_bind (keeps_asks (pathIsDir_looks out) hP) fun isDir => ?_
    cases isDir with
    | false => exact hrest
    | true => exact Act.keeps_bind (Act.keeps_lift _) fun _ => Act.keeps_bind (Act.keeps_lift _) fun _ => hrest

/-- The archive that is opened is the one there was before the arguments were checked. -/
theorem content_after_check {setup : DecompressSetup} {arv out : Path} {w w' : World} {c : Bytes}
    (hcheck : checkDecompressionForArgErr setup arv out w = (.ok (), w')) (hc : w'.content arv = some c) :
    w.content arv = some c := by
  have hsame := keeps_check (P := fun w₁ => w₁.fs = w.fs ∧ w₁.cwd = w.cwd) (fun _ h => h) setup arv out w ⟨rfl, rfl⟩
  obtain ⟨hfs, hcwd⟩ := (Act.of_wp hsame).1 () hcheck
  unfold World.content World.resolve at hc ⊢
  rwa [← hfs, ← hcwd]

/-- **When raising the flags keeps a success**: the memory cost in the header is within the flag for it, in KiB and cut
to 32 bits. The outcome is then the same. -/
theorem raised_flags_iff {setup : DecompressSetup} {args args' : DecompressArgs} (hraise : args.Raises args')
    {w w' : World} (hrun : initializeDecompression K setup args w = (.ok (), w')) :
    initializeDecompression K setup args' w = (.ok (), w') ↔
      ∀ f h, w.content args.archive = some f → headerOf K f = some h → h.argonParams.1 ≤ args'.limits.effMaxM := by
  obtain ⟨filter, w₁, hfilter, hrun⟩ := Act.bind_eq_ok.1 hrun
  obtain ⟨_, w₂, hcheck, hrun⟩ := Act.bind_eq_ok.1 hrun
  obtain ⟨arch, w₄, hopen, hrun⟩ := Act.bind_eq_ok.1 hrun
  obtain ⟨f, w₃, hfile, hload⟩ := Act.bind_eq_ok.1 hopen
  obtain ⟨hnew, rfl⟩ := Act.lift_eq_ok.1 hload
  have hfile := Act.mapErr_eq_ok.1 hfile
  have hw : w₁ = w := (Act.lift_eq_ok.1 hfilter).2
  have hcontent : w.content args.archive = some f := hw ▸ content_after_check hcheck (openFile_ok hfile).1
  obtain ⟨s, hret, rfl⟩ := ArchiveReader.new_ok.1 (Except.mapError_eq_ok.1 hnew)
  have hhead := headerOf_retrieve (retrieve_ok.1 hret).1
  have hcost : retrieve K f args.archive args'.limits setup.prompts args.confirm = .ok s ↔
      ∀ f h, w.content args.archive = some f → headerOf K f = some h → h.argonParams.1 ≤ args'.limits.effMaxM := by
    rw [retrieve_raised hraise.limits hret]
    constructor
    · intro hle f' h hf' hh
      cases hcontent.symm.trans hf'
      cases hhead.symm.trans hh
      exact hle
    · exact fun h => h f s.header hcontent hhead
  rw [← hcost]
  unfold initializeDecompression
  rw [hraise.filter, hraise.archive, hraise.output, Act.bind_of_ok hfilter, Act.bind_of_ok hcheck]
  unfold openReader
  rw [hraise.confirm, hraise.archive, hraise.output, bind_assoc, Act.bind_of_ok (Act.mapErr_eq_ok.2 hfile)]
  constructor
  · intro hrun'
    obtain ⟨arch', w₅, hload', _⟩ := Act.bind_eq_ok.1 hrun'
    obtain ⟨s', hret', rfl⟩ := ArchiveReader.new_ok.1 (Except.mapError_eq_ok.1 (Act.lift_eq_ok.1 hload').1)
    have hhead' := (retrieve_ok.1 hret').1
    have hsame : s'.header = s.header := Option.some.inj ((headerOf_retrieve hhead').symm.trans hhead)
    obtain ⟨_, _, _, _, _, _, _, _, hle⟩ := retrieveHeader_ok.1 hhead'
    exact (retrieve_raised hraise.limits hret).2 (hsame ▸ hle)
  · intro hret'
    have hload' : liftResult (ArchiveReader.new K f args.archive args.output args'.limits setup.prompts args.confirm) w₄
        = (.ok ⟨args.output, args.archive, f, s.index, s.header, s.cipher, args'.limits⟩, w₄) :=
      Act.lift_eq_ok.2 ⟨Except.mapError_eq_ok.2 (ArchiveReader.new_ok.2 ⟨s, hret', rfl⟩), rfl⟩
    rw [Act.bind_of_ok hload']
    exact ArchiveReader.handleFiles_withLimits (r := ArchiveReader.filtered
      ⟨args.output, args.archive, f, s.index, s.header, s.cipher, args.limits⟩ _) hraise.limits.file w₄ () w' hrun

/-- An empty output directory, no filter and no password. -/
def DecompressSetup.plain : DecompressSetup where
  countDir _ := .ok 0
  compileFilter _ := some fun _ => true
  prompts := ⟨none, none⟩

/-- `a.cryo` into `out`, with a flag for the memory cost only. -/
def DecompressArgs.plain (maxMCost : Flag) : DecompressArgs where
  archive := [.normal "a.cryo"]
  output := [.normal "out"]
  maxFileSize := none
  maxBlockSize := none
  maxMCost := maxMCost
  maxIndexSize := none
  maxHeaderSize := none
  filter := []
  confirm := false

/-- A directory with an archive without entries, whose header and index are encoded by no bytes. -/
def World.withEmptyArchive : World :=
  let w := World.ofDirs [[]]
  { w with fs := Function.update w.fs ["a.cryo"] (some (.file
      ([0, 0, 0, 0] ++ Footer.serialize ⟨4, 0, 0, false, Vector.replicate 12 0⟩) 0o644 0)) }

/-- Raising the memory cost from 1 GiB to 2 GiB keeps the success. -/
theorem raised_flags_iff_small :
    let K := Crates.tabled [Header.stored 2] [⟨[], [], 0⟩]
    let w := World.withEmptyArchive
    ∃ w', initializeDecompression K .plain (.plain (some (2 ^ 30))) w = (.ok (), w') ∧
      initializeDecompression K .plain (.plain (some (2 ^ 31))) w = (.ok (), w') := by
  intro K w
  have hrun := Act.run_of_ok (x := initializeDecompression K .plain (.plain (some (2 ^ 30)))) (s := w) (a := ())
    (by decide +kernel)
  refine ⟨_, hrun, (raised_flags_iff ?_ hrun).2 fun f h hf hh => ?_⟩
  · exact ⟨rfl, rfl, rfl, rfl, by decide, by decide, by decide, by decide, by decide⟩
  · have hf' : f = [0, 0, 0, 0] ++ Footer.serialize ⟨4, 0, 0, false, Vector.replicate 12 0⟩ :=
      Option.some.inj (hf.symm.trans (by decide +kernel))
    have hh' : h = Header.stored 2 := Option.some.inj (hh.symm.trans (by rw [hf']; decide +kernel))
    rw [hh']
    decide

/-- **Raising the memory cost from 1 GiB to 4 TiB** rejects the archive: 4 TiB are 2³² KiB, of which 32 bits keep
nothing. -/
theorem raised_flag_rejects :
    let K := Crates.tabled [Header.stored 2] [⟨[], [], 0⟩]
    let w := World.withEmptyArchive
    (DecompressArgs.plain (some (2 ^ 30))).Raises (.plain (some (2 ^ 42))) ∧
      (initializeDecompression K .plain (.plain (some (2 ^ 30))) w).1 = .ok () ∧
      (initializeDecompression K .plain (.plain (some (2 ^ 42))) w).1
        = .error (.err (.mCostTooLarge (65536 * 1024) 0)) := by
  intro K w
  exact ⟨⟨rfl, rfl, rfl, rfl, by decide, by decide, by decide, by decide, by decide⟩, by decide +kernel,
    by decide +kernel⟩

end Cryo
