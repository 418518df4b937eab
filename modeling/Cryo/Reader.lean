import Cryo.Lib.BufWriter
import Cryo.Lib.Ranges
import Cryo.Loader
import Cryo.PathSafety

/-!
# Reading blocks and extracting entries

`reader.rs`: `readBlock` reads, opens and unpacks one block, `verify` does the same by hand for every block, and
`extractFile` writes one entry, the bytes of a regular file being cut out of the blocks whose ranges overlap it and
written through a buffer of the size of a block. An extraction runs in a `World`, whose log keeps every change it made,
also when it fails.
-/

namespace Cryo

open Posix Bytes

structure ArchiveReader where
  root : Path
  path : Path
  reader : Bytes
  index : Index
  header : Header
  cipher : Cipher
  limits : Limits
  deriving DecidableEq

/-- The ranges of the blocks in the stream. -/
def buildBlockRanges (blocks : List BlockEntry) : List (Nat × Nat) := go 0 blocks
where
  /-- The loop, with the stream position reached. -/
  go : Nat → List BlockEntry → List (Nat × Nat)
    | _, [] => []
    | streampos, block :: blocks =>
      (streampos, streampos + block.sizePlain) :: go (streampos + block.sizePlain) blocks

/-- `partition_point` on a list that is partitioned. -/
def partitionPoint {α : Type} (p : α → Bool) (l : List α) : Nat := (l.takeWhile p).length

/-- `saturating_add` of the overhead that a stored block may have. -/
def Header.maxStored (h : Header) : Nat := min (h.blockSize + STORED_BLOCK_OVERHEAD) u64Max

/-- `UNIX_EPOCH + Duration::from_secs`. -/
def systemTime (timestamp : Nat) : Except Halt Int :=
  if timestamp < 2 ^ 63 then .ok timestamp else .error (.panic "overflow when adding duration to instant")

theorem systemTime_ok {n : Nat} {t : Int} : systemTime n = .ok t ↔ n < 2 ^ 63 ∧ t = n := by
  unfold systemTime
  split <;> simp_all [eq_comm]

variable (K : Crates)

/-- A compressed block is unpacked into at most its recorded length. -/
def unpackBlock (engine : DecompressingEngine) (block : BlockEntry) (decrypted : Bytes) : Result Bytes :=
  if block.isCompressed then engine.decompress K decrypted block.sizePlain else .ok decrypted

/-- What is done with the writer of a file. -/
abbrev WriteM := Act (World × BufWriter) Halt

namespace ArchiveReader

/-- `ArchiveReader::new` on the bytes of the archive. -/
def new (f : Bytes) (p out : Path) (limits : Limits) (prompts : Prompts) (confirm : Bool) : Result ArchiveReader := do
  let structs ← retrieve K f p limits prompts confirm
  .ok {
    root := out
    path := p
    reader := f
    index := structs.index
    header := structs.header
    cipher := structs.cipher
    limits := limits }

variable (r : ArchiveReader)

/-- The engine that the header asks for. -/
def engine : DecompressingEngine := ⟨r.header.compression⟩

def readBlock (block : BlockEntry) (blockNum : Nat) (engine : DecompressingEngine) : Result Bytes := do
  failIf (block.sizePlain > r.header.blockSize) (.blockTooLarge block.sizePlain r.header.blockSize)
  failIf (block.sizeStored > r.header.maxStored) (.blockTooLarge block.sizeStored r.header.maxStored)
  ioFailed r.path (seekStart block.offset)
  let stored ← ioFailed r.path (readAt r.reader block.offset block.sizeStored)
  let decrypted ← openStored K (.block block.nonce) r.cipher r.header stored blockNum
  let plain ← unpackBlock K engine block decrypted
  failIf (plain.length ≠ block.sizePlain) .decompressionError
  .ok plain

/-- The body of the loop of `verify`. -/
def verifyBlock (p : Path) (engine : DecompressingEngine) (i : Nat) (block : BlockEntry) : Result Unit := do
  failIf (block.sizePlain > r.header.blockSize) (.blockTooLarge block.sizePlain r.header.blockSize)
  failIf (block.sizeStored > r.header.maxStored) (.blockTooLarge block.sizeStored r.header.maxStored)
  ioFailed p (seekStart block.offset)
  let stored ← ioFailed p (readAt r.reader block.offset block.sizeStored)
  let decrypted ← decryptBlock K (.block block.nonce) r.cipher r.header stored i
  let plain ← unpackBlock K engine block decrypted
  failIf (K.blake3 plain ≠ block.checksum) .checksumMismatch

def verifyBlocks (p : Path) (engine : DecompressingEngine) : Nat → List BlockEntry → Result Unit
  | _, [] => .ok ()
  | i, block :: blocks => do
    r.verifyBlock K p engine i block
    verifyBlocks p engine (i + 1) blocks

def verify (p : Path) : Result Unit := do
  let engine ← DecompressingEngine.new K r.header.compression
  r.verifyBlocks K p engine 0 r.index.block

/-! ## Extraction -/

/-- The slice of one block that belongs to `[fileStart, fileEnd)`. -/
def blockSlice (fileStart fileEnd : Nat) (engine : DecompressingEngine) (block : BlockEntry) (i start stop : Nat) :
    Result Bytes := do
  let takeStart := fileStart - start
  let takeEnd := min fileEnd stop - start
  let plain ← r.readBlock K block i engine
  failIf (K.blake3 plain ≠ block.checksum) .decompressionError
  failIf (takeStart > takeEnd ∨ takeEnd > plain.length) .decompressionError
  .ok (slice takeStart (takeEnd - takeStart) plain)

/-- The loop over the blocks from the first one that overlaps, up to the first one that does not. -/
def extractBlocks (fileStart fileEnd : Nat) (engine : DecompressingEngine) :
    List ((Nat × Nat) × Nat) → WriteM Unit
  | [] => pure ()
  | ((start, stop), i) :: rest =>
    match r.index.block[i]? with
    | none => Act.throw (.panic "index out of bounds")
    | some block =>
      if stop ≤ fileStart ∨ start ≥ fileEnd then pure ()
      else do
        let piece ← liftResult (r.blockSlice K fileStart fileEnd engine block i start stop)
        osCall .writeError (BufWriter.writeAll piece)
        extractBlocks fileStart fileEnd engine rest

/-- What follows the loop: the mode is set before the buffer is written out, the time after it. -/
def finishRegular (outDir : Path) (permissions : Nat) (time : Int) : WriteM Unit := do
  Act.onFst (osCall .writeError (setPermissions outDir permissions))
  let file ← osCall .writeError BufWriter.intoInner
  Act.onFst (osCall .writeError (setModified file time))

/-- What is done with the writer. -/
def writeRegular (f : FileEntry) (fileEnd : Nat) (outDir : Path) (blocks : List (Nat × Nat)) : WriteM Unit := do
  let time ← Act.lift (systemTime f.timestamp)
  let first := partitionPoint (fun b => b.2 ≤ f.streamOffset) blocks
  let engine ← liftResult (DecompressingEngine.new K r.header.compression)
  r.extractBlocks K f.streamOffset fileEnd engine (blocks.zipIdx.drop first)
  finishRegular outDir f.permissions time

def extractRegular (f : FileEntry) (fileEnd : Nat) (outDir : Path) (blocks : List (Nat × Nat)) : ExtractM Unit := do
  let file ← osCall .writeError (createFile outDir)
  Act.lift (allocBuffer r.header.blockSize)
  BufWriter.within (.withCapacity r.header.blockSize file) (r.writeRegular K f fileEnd outDir blocks)

/-- A link is made when its target, normalised from the directory it stands in, starts with the root. -/
def extractSymlink (f : FileEntry) (outDir : Path) : ExtractM Unit :=
  match f.symlinkTarget with
  | none => Act.throw (.err .writeError)
  | some target => do
    let canonicalRoot ← osCall .invalidPath (canonicalize r.root)
    let canonicalLinkDir ← osCall .invalidPath (canonicalize (outDir.parent.getD r.root))
    if ¬ (normalize (canonicalLinkDir.join target)).startsWith canonicalRoot then
      Act.throw (.err (.unsafePath target))
    else osCall .writeError (symlink target outDir)

/-- `checked_add` on 64 bits. -/
def fileRange (f : FileEntry) : Result Nat :=
  if f.streamOffset + f.size < 2 ^ 64 then .ok (f.streamOffset + f.size) else .error .deserializationFailed

/-- The checks before anything is written. -/
def checkEntry (f : FileEntry) : Result Nat := do
  failIf (f.size > r.limits.effMaxFile) (.fileTooLarge f.size r.limits.effMaxFile)
  fileRange f

def createParent (outDir : Path) : ExtractM Unit :=
  match outDir.parent with
  | some parent => osCall .writeError (createDirAll parent)
  | none => pure ()

def extractFile (f : FileEntry) (outDir : Path) (blocks : List (Nat × Nat)) : ExtractM Unit := do
  let fileEnd ← liftResult (r.checkEntry f)
  createParent outDir
  match f.ftype with
  | .dir => osCall .writeError (createDirAll outDir)
  | .symlink => r.extractSymlink f outDir
  | .file => r.extractRegular K f fileEnd outDir blocks

/-- The body of the loop of `handle_files`. -/
def extractEntry (blocks : List (Nat × Nat)) (f : FileEntry) : ExtractM Unit := do
  let outDir ← safeOutputPath r.root f.path
  r.extractFile K f outDir blocks

def extractEntries (blocks : List (Nat × Nat)) : List FileEntry → ExtractM Unit
  | [] => pure ()
  | f :: files => do
    r.extractEntry K blocks f
    extractEntries blocks files

def handleFiles : ExtractM Unit := do
  osCall .writeError (createDirAll r.root)
  r.extractEntries K (buildBlockRanges r.index.block) r.index.files

end ArchiveReader
end Cryo
