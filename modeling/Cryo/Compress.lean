import Cryo.Writer

/-!
# Compressing

`initialize_compression` of `compress.rs`, run to its end: the queued paths are read, the raw blocks processed by the
pool, the processed blocks received by the writer in some order (`Delivery`), and the index written. What the threads
may do in between, and how a failure in one of them ends, is the subject of `Cryo.Threads`.

`Run` says what a successful run did to an archive writer: it appended the sealed chunks of the stream of its sources,
and their entries. A compression succeeds exactly by such a run (`compressFiles_ok_iff`), in any delivery order.
-/

namespace Cryo

open Posix

/-- The order in which the writer receives the blocks. -/
structure Delivery where
  order : List ProcessedBlock → List ProcessedBlock
  perm : ∀ blocks, (order blocks).Perm blocks

/-- In the order of the blocks. -/
def Delivery.sequential : Delivery := ⟨id, fun _ => .refl _⟩

/-- The random draws of a run. -/
structure Draws where
  nonces : Nat → Nonce
  indexNonce : Nonce

/-- What a run depends on besides the archive: the file system it reads, its draws, and the delivery order. -/
structure Env where
  os : Os
  draws : Draws
  delivery : Delivery

variable (K : Crates)

/-- The workers and the writer, on the raw blocks that the reader sent. -/
def runThreads (env : Env) (arch : ArchiveWriter) (raws : List RawBlock) (readResult : Except Halt Unit)
    (files : List FileEntry) (total : Nat) : Except Halt ArchiveWriter := do
  let processed ← (spawnWorkers K raws env.draws.nonces arch.cipher arch.header.archiveId arch.header.compression
    arch.header.compressionLevel).mapError .err
  readResult
  match writer K env.draws.indexNonce ((env.delivery.order processed).map .block ++ [.finalize files total]) arch with
  | (.ok (), arch') => .ok arch'
  | (.error e, _) => .error (.err e)

/-- The reader of a new archive. -/
def ReadState.start : ReadState := ⟨[], 0, 0, [], []⟩

/-- From the loop over the queued paths on. After a failed read the partial block is not sent. -/
def compressFiles (env : Env) (arch : ArchiveWriter) (root : Path) (queue : List Path) (bs : Nat) :
    Except Halt ArchiveWriter :=
  match readFiles env.os root bs queue .start with
  | (.error (.panic message), _) => .error (.panic message)
  | (.error (.err e), s) => runThreads K env arch s.sent (.error (.err e)) s.files s.streamPosition
  | (.ok (), s) => runThreads K env arch s.produced (.ok ()) s.files s.streamPosition

structure CompressArgs where
  archiveName : String
  pathToCompress : Path
  compression : Compressor
  compressionLevel : Int
  encryptionType : EncryptionType
  recursive : Bool
  encryptionParams : ParamsProfile
  bs : Nat
  confirm : Bool

/-- What the command asks of its surroundings before it starts: the paths that exist, the scan of a directory
(`retrieve_all_files`), the calls that fail on the file it creates (none when the file cannot be created), and what it
draws for the header. -/
structure Setup where
  pathExists : Path → Bool
  isDir : Path → Bool
  retrieveAllFiles : Path → Result (List Path)
  createNew : String → Option (Nat → Option Nat)
  prompts : Prompts
  argonSalt : Vector UInt8 32
  archiveId : ArchiveId

def checkCompressionForArgErr (setup : Setup) (s : String) (p : Path) (r : Bool) : Result Unit :=
  if s.isEmpty then .error .emptyArchiveName
  else if ¬ setup.pathExists p ∨ (¬ setup.isDir p ∧ r) then .error .invalidPath
  else .ok ()

/-- The root and the paths to archive. -/
def queueFiles (setup : Setup) (path : Path) (recursive : Bool) : Result (Path × List Path) :=
  if recursive then do
    let files ← setup.retrieveAllFiles path
    .ok (path, files)
  else if setup.isDir path then .error .dirNotRecursive
  else .ok (path.parent.getD [.curDir], [path])

/-- The header of a compression. -/
def CompressArgs.header (args : CompressArgs) (setup : Setup) : Header :=
  Header.new setup.argonSalt setup.archiveId args.encryptionParams args.compression args.compressionLevel args.bs
    args.encryptionType

/-- What is checked before the archive is created: the root and the paths to archive. -/
def prepare (setup : Setup) (args : CompressArgs) : Result (Path × List Path) := do
  checkCompressionForArgErr setup args.archiveName args.pathToCompress args.recursive
  let _engine : CompressingEngine K ← CompressingEngine.new args.compression args.compressionLevel
  queueFiles setup args.pathToCompress args.recursive

def initializeCompression (setup : Setup) (env : Env) (args : CompressArgs) : Except Halt ArchiveWriter := do
  let (root, queue, archive) ← Except.mapError Halt.err do
    let (root, queue) ← prepare K setup args
    let file := (setup.createNew (archiveFilename args.archiveName)).map Sink.create
    let archive ← ArchiveWriter.new K file (args.header setup) setup.prompts args.confirm
    .ok (root, queue, archive)
  compressFiles K env archive root queue args.bs

/-! ## Successful runs -/

open Chunk ReadState

/-- A successful run on `arch`: after the entries `old` and `pos` bytes of the stream it appended the chunks of the
sources' stream, sealed as `processed`, and the sources' entries. -/
structure Run (draws : Draws) (arch : ArchiveWriter) (old : List FileEntry) (pos bs : Nat) (srcs : List Source)
    (processed : List ProcessedBlock) (arch' : ArchiveWriter) : Prop where
  feedable : Feedable bs srcs
  workers : spawnWorkers K (numbered arch.index.block.length (chunks bs (Source.stream srcs))) draws.nonces arch.cipher
    arch.header.archiveId arch.header.compression arch.header.compressionLevel = .ok processed
  written : ∃ mid, writeBlocks processed arch = (.ok (), mid) ∧
    finalize K draws.indexNonce (old ++ Source.entries pos srcs) (pos + (Source.stream srcs).length) mid
      = (.ok (), arch')

variable {K}

/-- The state of a reader that starts after `old` entries, `pos` bytes and `n` blocks. -/
def ReadState.resume (old : List FileEntry) (pos n : Nat) : ReadState := ⟨old, pos, n, [], []⟩

theorem ReadState.resume_short (bs : Nat) (old : List FileEntry) (pos n : Nat) : (resume old pos n).Short bs :=
  fun h => h

/-- **The threads succeed exactly by a run**, whatever the delivery order. -/
theorem runThreads_ok_iff {env : Env} {arch arch' : ArchiveWriter} {old : List FileEntry} {pos bs : Nat}
    {srcs : List Source} (hz : Feedable bs srcs) {s : ReadState}
    (hs : s = srcs.foldl (ReadState.add bs) (resume old pos arch.index.block.length)) :
    runThreads K env arch s.produced (.ok ()) s.files s.streamPosition = .ok arch' ↔
      ∃ processed, Run K env.draws arch old pos bs srcs processed arch' := by
  rw [foldl_add (resume_short bs old pos _) hz] at hs
  have hproduced : s.produced = numbered arch.index.block.length (chunks bs (Source.stream srcs)) := by
    have h : (feed bs (resume old pos arch.index.block.length) (Source.stream srcs)).produced = _ :=
      produced_feed (Source.stream srcs)
    rw [hs]
    exact h
  have hfiles : s.files = old ++ Source.entries pos srcs := by rw [hs]; rfl
  have hpos : s.streamPosition = pos + (Source.stream srcs).length := by rw [hs]; rfl
  have hwriter : ∀ processed, spawnWorkers K (numbered arch.index.block.length (chunks bs (Source.stream srcs)))
      env.draws.nonces arch.cipher arch.header.archiveId arch.header.compression arch.header.compressionLevel
        = .ok processed →
      writer K env.draws.indexNonce ((env.delivery.order processed).map .block ++
        [.finalize (old ++ Source.entries pos srcs) (pos + (Source.stream srcs).length)]) arch = (do
      writeBlocks processed
      finalize K env.draws.indexNonce (old ++ Source.entries pos srcs) (pos + (Source.stream srcs).length) :
        WriterM Unit) arch := by
    intro processed hp
    have hids := spawnWorkers_ids hp
    rw [numbered_ids] at hids
    have hlen : processed.length = (chunks bs (Source.stream srcs)).length := by
      simpa using congrArg List.length hids
    rw [← hlen] at hids
    exact writer_eq K _ hids (env.delivery.perm processed) _ _
  rw [hproduced, hfiles, hpos, runThreads, Except.bind_eq_ok]
  constructor
  · rintro ⟨processed, hp, h⟩
    have hp := Except.mapError_eq_ok.1 hp
    rw [Except.ok_bind, hwriter processed hp] at h
    split at h
    · rename_i arch₁ hrun
      cases h
      obtain ⟨_, mid, h1, h2⟩ := Act.bind_eq_ok.1 hrun
      exact ⟨processed, hz, hp, mid, h1, h2⟩
    · cases h
  · rintro ⟨processed, _, hp, mid, h1, h2⟩
    refine ⟨processed, Except.mapError_eq_ok.2 hp, ?_⟩
    rw [Except.ok_bind, hwriter processed hp, Act.bind_of_ok h1, h2]

theorem runThreads_failed {env : Env} {arch : ArchiveWriter} {raws : List RawBlock} {e : Halt} {files : List FileEntry}
    {total : Nat} {arch' : ArchiveWriter} : runThreads K env arch raws (.error e) files total ≠ .ok arch' := by
  intro h
  obtain ⟨_, _, h⟩ := Except.bind_eq_ok.1 h
  cases h

/-- **A compression succeeds exactly by a run** on the sources it observes. -/
theorem compressFiles_ok_iff {env : Env} {arch arch' : ArchiveWriter} {root : Path} {queue : List Path} {bs : Nat}
    (hnew : arch.index.block = []) :
    compressFiles K env arch root queue bs = .ok arch' ↔
      ∃ srcs processed, List.Forall₂ (fun p src => observe env.os root bs p = .ok src) queue srcs ∧
        Run K env.draws arch [] 0 bs srcs processed arch' := by
  have hstart : ReadState.start = resume [] 0 arch.index.block.length := by rw [hnew]; rfl
  have hshort : ReadState.start.Short bs := fun h => h
  constructor
  · intro h
    unfold compressFiles at h
    split at h
    · cases h
    · exact absurd h runThreads_failed
    · rename_i s hread
      obtain ⟨srcs, hobs, hs⟩ := readFiles_ok hshort hread
      rw [hstart] at hs
      obtain ⟨processed, hrun⟩ := (runThreads_ok_iff (feedable_of_observe hobs) hs).1 h
      exact ⟨srcs, processed, hobs, hrun⟩
  · rintro ⟨srcs, processed, hobs, hrun⟩
    unfold compressFiles
    rw [readFiles_of_observe hshort hobs]
    exact (runThreads_ok_iff (feedable_of_observe hobs) (by rw [hstart])).2 ⟨processed, hrun⟩

/-- A run keeps the header and the cipher. -/
theorem Run.same {draws : Draws} {arch arch' : ArchiveWriter} {old : List FileEntry} {pos bs : Nat} {srcs : List Source}
    {processed : List ProcessedBlock} (hrun : Run K draws arch old pos bs srcs processed arch') :
    arch'.header = arch.header ∧ arch'.cipher = arch.cipher := by
  obtain ⟨mid, hblocks, hfinal⟩ := hrun.written
  have happ := writeBlocks_ok hblocks
  obtain ⟨_, _, _, _, rfl, _, _⟩ := finalize_ok hfinal
  exact ⟨happ.header, happ.cipher⟩

/-- **A successful compression is a run** on the archive it creates. -/
theorem initializeCompression_ok {setup : Setup} {env : Env} {args : CompressArgs} {arch' : ArchiveWriter}
    (h : initializeCompression K setup env args = .ok arch') :
    ∃ (engine : CompressingEngine K) (root : Path) (queue : List Path) (faults : Nat → Option Nat)
      (arch : ArchiveWriter) (srcs : List Source) (processed : List ProcessedBlock),
      CompressingEngine.new args.compression args.compressionLevel = .ok engine ∧
      queueFiles setup args.pathToCompress args.recursive = .ok (root, queue) ∧
      ArchiveWriter.new K (some (Sink.create faults)) (args.header setup) setup.prompts args.confirm = .ok arch ∧
      List.Forall₂ (fun p src => observe env.os root args.bs p = .ok src) queue srcs ∧
      Run K env.draws arch [] 0 args.bs srcs processed arch' := by
  obtain ⟨⟨root, queue, arch⟩, hstart, h⟩ := Except.bind_eq_ok.1 h
  obtain ⟨⟨root', queue'⟩, hprepare, hstart⟩ := Except.bind_eq_ok.1 (Except.mapError_eq_ok.1 hstart)
  obtain ⟨_, _, hprepare⟩ := Except.bind_eq_ok.1 hprepare
  obtain ⟨engine, hengine, hqueue⟩ := Except.bind_eq_ok.1 hprepare
  obtain ⟨arch₀, hnew, hstart⟩ := Except.bind_eq_ok.1 hstart
  cases hstart
  obtain ⟨faults, hfaults⟩ : ∃ faults, setup.createNew (archiveFilename args.archiveName) = some faults := by
    cases hc : setup.createNew (archiveFilename args.archiveName) with
    | none =>
      rw [hc] at hnew
      obtain ⟨_, _, hnew⟩ := Except.bind_eq_ok.1 hnew
      cases hnew
    | some faults => exact ⟨faults, rfl⟩
  rw [hfaults] at hnew
  obtain ⟨srcs, processed, hobs, hrun⟩ := (compressFiles_ok_iff (ArchiveWriter.new_blocks hnew)).1 h
  exact ⟨engine, root, queue, faults, arch, srcs, processed, hengine, hqueue, hnew, hobs, hrun⟩

/-- A compression takes the block size it is given. -/
theorem initializeCompression_blockSize {setup : Setup} {env : Env} {args : CompressArgs} {arch : ArchiveWriter}
    (h : initializeCompression K setup env args = .ok arch) : arch.header.blockSize = args.bs := by
  obtain ⟨_, _, _, _, _, _, _, _, _, hnew, _, hrun⟩ := initializeCompression_ok h
  obtain ⟨_, _, _, hheader, _⟩ := ArchiveWriter.new_ok hnew
  rw [hrun.same.1, hheader]
  rfl

/-! ## A plain run -/

/-- A directory with `files`, a file that can be created and written, and zeros for everything drawn. -/
def Setup.plain (files : List Path) : Setup where
  pathExists _ := true
  isDir _ := true
  retrieveAllFiles _ := .ok files
  createNew _ := some fun _ => none
  prompts := ⟨none, none⟩
  argonSalt := Vector.replicate 32 0
  archiveId := Vector.replicate 16 0

def Env.plain (os : Os) : Env where
  os := os
  draws := ⟨fun _ => Vector.replicate 12 0, Vector.replicate 12 0⟩
  delivery := .sequential

/-- The directory `src`, neither compressed nor encrypted. -/
def CompressArgs.plain (bs : Nat) : CompressArgs where
  archiveName := "a"
  pathToCompress := [.normal "src"]
  compression := .none
  compressionLevel := 0
  encryptionType := .none
  recursive := true
  encryptionParams := .balanced
  bs := bs
  confirm := false

/-- The stored bytes of a block that is neither compressed nor encrypted. -/
def plainBlock (offset : Nat) (d : Bytes) : BlockEntry where
  offset := offset
  sizeStored := d.length
  sizePlain := d.length
  isCompressed := false
  nonce := Vector.replicate 12 0
  checksum := Vector.ofFn fun i => d.getD i 0

def plainFile (name : String) (offset size : Nat) : FileEntry where
  path := [.normal name]
  ftype := .file
  streamOffset := offset
  size := size
  timestamp := 0
  permissions := 0o644
  symlinkTarget := none

/-- The index of `a`, three bytes in blocks of two. -/
def indexOfA : Index := ⟨[plainFile "a" 0 3], [plainBlock 4 [1, 2], plainBlock 6 [3]], 3⟩

end Cryo
