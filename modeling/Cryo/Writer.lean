import Cryo.Lib.Resequence
import Cryo.Lib.Sink
import Cryo.Worker

/-!
# The writer

`writer.rs` and the writer thread of `compress.rs`. Processed blocks arrive as messages in any order; the thread keeps
those that came too early in a queue, writes the others and records their entries, and on `Finalize` writes the sealed
index and the footer. The messages are the list received until the channel closes.

The drain loop is the library's `Resequence.release` followed by writing what was released (`drainQueue_eq`), so a run
over the block messages writes the blocks in order (`absorb_eq`). What a successful write of blocks leaves is
`Appended`.
-/

namespace Cryo

open Posix Bytes

inductive WriterMessage where
  | block (b : ProcessedBlock)
  | finalize (files : List FileEntry) (totalStreamSize : Nat)

structure ArchiveWriter where
  writer : Sink
  index : Index
  streamPosition : Nat
  filePosition : Nat
  cipher : Cipher
  header : Header

abbrev WriterM := Act ArchiveWriter CryoErrors

/-- A call on the file, whose failure is a write error. -/
def onFile {α : Type} (x : Act Sink Errno α) : WriterM α :=
  Act.mapErr (fun _ => .writeError) (Act.zoom ArchiveWriter.writer (fun arch w => { arch with writer := w }) x)

def archiveFilename (arname : String) : String :=
  if arname.endsWith "cryo" then arname else arname ++ ".cryo"

/-! ## Blocks -/

/-- The index entry of a block written at `offset`. -/
def ProcessedBlock.entry (b : ProcessedBlock) (offset : Nat) : BlockEntry where
  offset := offset
  sizeStored := u32 b.processedData.length
  sizePlain := b.sizePlain
  isCompressed := b.isCompressed
  nonce := b.nonce
  checksum := b.checksum

/-- The writer after a block's bytes were written. -/
def ArchiveWriter.record (arch : ArchiveWriter) (b : ProcessedBlock) : ArchiveWriter :=
  { arch with
    index := { arch.index with block := arch.index.block ++ [b.entry arch.filePosition] }
    filePosition := arch.filePosition + u32 b.processedData.length }

/-- The body of the drain loop. -/
def writeBlock (b : ProcessedBlock) : WriterM Unit := do
  onFile (Sink.writeAll b.processedData)
  Act.modify fun arch => arch.record b

/-- The drain loop: blocks leave the queue as long as the expected one is in it. -/
def drainQueue (queue : List ProcessedBlock) (expectedId : Nat) : WriterM (List ProcessedBlock × Nat) :=
  match _h : Resequence.remove ProcessedBlock.id expectedId queue with
  | some (b, queue') => do
    writeBlock b
    drainQueue queue' (expectedId + 1)
  | none => pure (queue, expectedId)
termination_by queue.length
decreasing_by exact Resequence.remove_length_lt _h

/-! ## The index and the footer -/

variable (K : Crates)

namespace ArchiveWriter

/-- The writer's own copy of the sealing, which takes a block's number from the index. -/
def encryptBlock (arch : ArchiveWriter) (payload : Bytes) (encd : EncryptedData) : Result Bytes :=
  let (nonce, aad) : Nonce × Bytes := match encd with
    | .block nonce => (nonce, aad arch.index.block.length arch.header.archiveId)
    | .index nonce => (nonce, aad u64Max arch.header.archiveId)
  match arch.cipher with
  | .aes k => sealed (K.aesEncrypt k nonce aad payload) "AES encryption failure"
  | .chacha k => sealed (K.chachaEncrypt k nonce aad payload) "CHACHA encrypt failure"
  | .none => .ok payload

/-- An index is sealed as `codec` seals it. -/
theorem encryptBlock_index (arch : ArchiveWriter) (payload : Bytes) (nonce : Nonce) (n : Nat) :
    arch.encryptBlock K payload (.index nonce)
      = Cryo.encryptBlock K n payload (.index nonce) arch.header.archiveId arch.cipher := rfl

/-- The sealed index and the footer for it. -/
def sealIndex (arch : ArchiveWriter) (indexNonce : Nonce) : Result (Bytes × Footer) := do
  let indexBytes ← (K.indexToVec arch.index).elim (.error .serializationFailed) .ok
  let engine : CompressingEngine K ← CompressingEngine.new arch.header.compression arch.header.compressionLevel
  let comprIndexBytes ← engine.compress indexBytes
  let indexSizePlain := u32 indexBytes.length
  let kept := if indexSizePlain > comprIndexBytes.length then (comprIndexBytes, true) else (indexBytes, false)
  let encryptedIndex ← arch.encryptBlock K kept.1 (.index indexNonce)
  .ok (encryptedIndex, {
    indexOffset := arch.filePosition
    indexSizeStored := u32 encryptedIndex.length
    indexSizePlain := indexSizePlain
    indexCompressed := kept.2
    indexNonce := indexNonce })

/-- The calls at the end of `finish`. -/
def writeIndex (filePosition : Nat) (encryptedIndex : Bytes) (footer : Footer) : WriterM Unit := do
  onFile (Sink.writeAll encryptedIndex)
  onFile (Sink.writeAll footer.serialize)
  onFile Sink.flush
  onFile (Sink.setLen (filePosition + encryptedIndex.length + footer.serialize.length))

/-- `finish`, with the nonce it draws. -/
def finish (indexNonce : Nonce) : WriterM Unit := do
  Act.modify fun arch => { arch with index := { arch.index with totalStreamSize := arch.streamPosition } }
  let arch ← Act.read id
  let r ← Act.lift (arch.sealIndex K indexNonce)
  writeIndex arch.filePosition r.1 r.2

/-- The writer of a new file, with the header written. -/
def writeHeader (h : Header) (cipher : Cipher) (sink : Sink) : Result ArchiveWriter := do
  let headerBytes ← (K.headerToVec h).elim (.error .serializationFailed) .ok
  let bytesToWrite := leBytes 4 (u32 headerBytes.length) ++ headerBytes
  match Sink.writeAll bytesToWrite sink with
  | (.error _, _) => .error .writeError
  | (.ok _, writer) => .ok {
      writer := writer
      index := ⟨[], [], 0⟩
      streamPosition := 0
      filePosition := bytesToWrite.length
      cipher := cipher
      header := h }

/-- `ArchiveWriter::new`, on what creating the file gave: none when it already exists or cannot be created. -/
def new (file : Option Sink) (h : Header) (prompts : Prompts) (confirm : Bool) : Result ArchiveWriter := do
  let cipher ← Cipher.new K prompts h confirm
  let sink ← file.elim (.error .invalidPath) .ok
  writeHeader K h cipher sink

end ArchiveWriter

/-! ## The thread -/

variable (indexNonce : Nonce)

/-- The loop over the messages; when the channel closes without `Finalize` it ends. -/
def writerLoop : List WriterMessage → List ProcessedBlock → Nat → WriterM Unit
  | [], _, _ => pure ()
  | .block b :: messages, blockQueue, expectedId => do
    let (blockQueue, expectedId) ← drainQueue (Resequence.insert ProcessedBlock.id b blockQueue) expectedId
    writerLoop messages blockQueue expectedId
  | .finalize files totalStreamSize :: _, _, _ => do
    Act.modify fun arch => { arch with
      index := { arch.index with files := files }
      streamPosition := totalStreamSize }
    ArchiveWriter.finish K indexNonce

def writer (messages : List WriterMessage) : WriterM Unit := fun arch =>
  writerLoop K indexNonce messages [] arch.index.block.length arch

/-! ## Any arrival order -/

/-- Blocks written one after another. -/
def writeBlocks : List ProcessedBlock → WriterM Unit
  | [] => pure ()
  | b :: bs => do
    writeBlock b
    writeBlocks bs

/-- The loop over block messages only: what stays queued and the number awaited. -/
def absorb : List ProcessedBlock → List ProcessedBlock × Nat → WriterM (List ProcessedBlock × Nat)
  | [], s => pure s
  | b :: bs, s => do
    let s ← drainQueue (Resequence.insert ProcessedBlock.id b s.1) s.2
    absorb bs s

theorem writeBlocks_append : ∀ bs cs : List ProcessedBlock,
    writeBlocks (bs ++ cs) = (do
      writeBlocks bs
      writeBlocks cs)
  | [], cs => by simp [writeBlocks]
  | b :: bs, cs => by simp [writeBlocks, writeBlocks_append bs cs]

/-- The drain loop writes what is released. -/
theorem drainQueue_eq (queue : List ProcessedBlock) (e : Nat) :
    drainQueue queue e = (do
      writeBlocks (Resequence.release ProcessedBlock.id queue e).1
      pure (Resequence.release ProcessedBlock.id queue e).2) := by
  induction queue, e using drainQueue.induct with
  | case1 queue e b queue' h ih =>
    rw [drainQueue, Resequence.release_some h]
    split
    · rename_i h'
      rw [h] at h'
      cases h'
      rw [ih]
      simp [writeBlocks]
    · rename_i h'; rw [h] at h'; cases h'
  | case2 queue e h =>
    rw [drainQueue, Resequence.release_none h]
    split
    · rename_i h'; rw [h] at h'; cases h'
    · simp [writeBlocks]

/-- The block messages write what the resequencer hands out. -/
theorem absorb_eq : ∀ (bs : List ProcessedBlock) (q : List ProcessedBlock) (e : Nat),
    absorb bs (q, e) = (do
      writeBlocks (Resequence.feed ProcessedBlock.id bs (q, e)).1
      pure (Resequence.feed ProcessedBlock.id bs (q, e)).2)
  | [], q, e => by simp [absorb, Resequence.feed, writeBlocks]
  | b :: bs, q, e => by
    simp only [absorb, drainQueue_eq, Resequence.feed, bind_assoc, pure_bind, writeBlocks_append, absorb_eq bs]

/-- **In any arrival order** the blocks are written in the order of their numbers, and the queue ends empty. -/
theorem absorb_perm {blocks arrivals : List ProcessedBlock} {n : Nat}
    (hids : blocks.map ProcessedBlock.id = List.range' n blocks.length) (hperm : arrivals.Perm blocks) :
    absorb arrivals ([], n) = (do
      writeBlocks blocks
      pure ([], n + blocks.length)) := by
  rw [absorb_eq, Resequence.feed_perm hids hperm]

theorem writerLoop_blocks (rest : List WriterMessage) : ∀ (bs q : List ProcessedBlock) (e : Nat),
    writerLoop K indexNonce (bs.map .block ++ rest) q e = (do
      let s ← absorb bs (q, e)
      writerLoop K indexNonce rest s.1 s.2)
  | [], q, e => by simp [absorb]
  | b :: bs, q, e => by
    simp only [List.map_cons, List.cons_append, writerLoop, absorb, bind_assoc]
    congr 1
    funext s
    exact writerLoop_blocks rest bs s.1 s.2

/-- What `Finalize` does. -/
def finalize (files : List FileEntry) (totalStreamSize : Nat) : WriterM Unit := do
  Act.modify fun arch => { arch with
    index := { arch.index with files := files }
    streamPosition := totalStreamSize }
  ArchiveWriter.finish K indexNonce

/-- The whole thread, on all blocks and `Finalize`. -/
theorem writer_eq {blocks arrivals : List ProcessedBlock} {arch : ArchiveWriter}
    (hids : blocks.map ProcessedBlock.id = List.range' arch.index.block.length blocks.length)
    (hperm : arrivals.Perm blocks) (files : List FileEntry) (total : Nat) :
    writer K indexNonce (arrivals.map .block ++ [.finalize files total]) arch = (do
      writeBlocks blocks
      finalize K indexNonce files total : WriterM Unit) arch := by
  unfold writer
  rw [writerLoop_blocks, absorb_perm hids hperm]
  simp [writerLoop, finalize]

/-! ## What was written -/

/-- The entries of blocks written one after another from `offset`. -/
def blockEntries : Nat → List ProcessedBlock → List BlockEntry
  | _, [] => []
  | offset, b :: bs => b.entry offset :: blockEntries (offset + u32 b.processedData.length) bs

/-- The recorded length of blocks. -/
def storedSize (bs : List ProcessedBlock) : Nat := (bs.map fun b => u32 b.processedData.length).sum

/-- Entries that follow each other in the file, from one offset to another. -/
def Contiguous : Nat → List BlockEntry → Nat → Prop
  | start, [], stop => start = stop
  | start, b :: bs, stop => b.offset = start ∧ Contiguous (start + b.sizeStored) bs stop

theorem Contiguous.append : ∀ {as bs : List BlockEntry} {s m e : Nat}, Contiguous s as m → Contiguous m bs e →
    Contiguous s (as ++ bs) e
  | [], _, _, _, _, h, h' => by cases h; exact h'
  | _ :: _, _, _, _, _, ⟨h1, h2⟩, h' => ⟨h1, h2.append h'⟩

theorem contiguous_blockEntries : ∀ (offset : Nat) (bs : List ProcessedBlock),
    Contiguous offset (blockEntries offset bs) (offset + storedSize bs)
  | _, [] => rfl
  | offset, b :: bs => by
    refine ⟨rfl, ?_⟩
    have h := contiguous_blockEntries (offset + u32 b.processedData.length) bs
    simpa [storedSize, Nat.add_assoc, ProcessedBlock.entry] using h

@[simp] theorem length_blockEntries : ∀ (offset : Nat) (bs : List ProcessedBlock),
    (blockEntries offset bs).length = bs.length
  | _, [] => rfl
  | offset, b :: bs => by simp [blockEntries, length_blockEntries _ bs]

/-- The `i`-th entry is that of the `i`-th block. -/
theorem getElem?_blockEntries : ∀ {bs : List ProcessedBlock} {i : Nat} {b : ProcessedBlock} (offset : Nat),
    bs[i]? = some b → ∃ off, (blockEntries offset bs)[i]? = some (b.entry off)
  | [], _, _, _, h => by simp at h
  | _ :: bs, 0, _, offset, h => by
    simp only [List.getElem?_cons_zero, Option.some.injEq] at h
    subst h
    exact ⟨offset, rfl⟩
  | c :: bs, i + 1, b, offset, h => by
    rw [List.getElem?_cons_succ] at h
    exact getElem?_blockEntries (offset + u32 c.processedData.length) h

/-- `bs` were appended to an archive, in the index and in the file. -/
structure Appended (arch : ArchiveWriter) (bs : List ProcessedBlock) (arch' : ArchiveWriter) : Prop where
  block : arch'.index.block = arch.index.block ++ blockEntries arch.filePosition bs
  filePosition : arch'.filePosition = arch.filePosition + storedSize bs
  cipher : arch'.cipher = arch.cipher
  header : arch'.header = arch.header
  wrote : arch.writer.pos ≤ arch.writer.bytes.length →
    Sink.Wrote arch.writer (bs.flatMap ProcessedBlock.processedData) arch'.writer

theorem onFile_ok {α : Type} {x : Act Sink Errno α} {arch arch' : ArchiveWriter} {a : α}
    (h : onFile x arch = (.ok a, arch')) : ∃ w, x arch.writer = (.ok a, w) ∧ arch' = { arch with writer := w } :=
  Act.zoom_eq_ok.1 (Act.mapErr_eq_ok.1 h)

theorem writeBlock_ok {b : ProcessedBlock} {arch arch' : ArchiveWriter} (h : writeBlock b arch = (.ok (), arch')) :
    ∃ w, Sink.Wrote arch.writer b.processedData w ∧ arch' = { arch.record b with writer := w } := by
  obtain ⟨_, arch₁, h1, h2⟩ := Act.bind_eq_ok.1 h
  obtain ⟨w, hw, rfl⟩ := onFile_ok h1
  cases h2
  exact ⟨w, Sink.writeAll_ok hw, rfl⟩

/-- **Blocks that were written** are in the index and in the file. -/
theorem writeBlocks_ok : ∀ {bs : List ProcessedBlock} {arch arch' : ArchiveWriter},
    writeBlocks bs arch = (.ok (), arch') → Appended arch bs arch'
  | [], arch, arch', h => by
    cases h
    exact ⟨by simp [blockEntries], rfl, rfl, rfl, fun _ => Sink.Wrote.refl _⟩
  | b :: bs, arch, arch', h => by
    obtain ⟨_, arch₁, h1, h2⟩ := Act.bind_eq_ok.1 h
    obtain ⟨w, hw, rfl⟩ := writeBlock_ok h1
    have hrest := writeBlocks_ok h2
    refine ⟨?_, ?_, hrest.cipher, hrest.header, fun hpos => hw.trans hpos (hrest.wrote (hw.inside hpos))⟩
    · rw [hrest.block]
      simp [ArchiveWriter.record, blockEntries]
    · rw [hrest.filePosition]
      simp [ArchiveWriter.record, storedSize, Nat.add_assoc]

/-- The writer as `Finalize` leaves it, the file apart. -/
def ArchiveWriter.closed (arch : ArchiveWriter) (files : List FileEntry) (total : Nat) : ArchiveWriter :=
  { arch with
    index := { files := files, block := arch.index.block, totalStreamSize := total }
    streamPosition := total }

variable {K indexNonce}

theorem finalize_eq (files : List FileEntry) (total : Nat) (arch : ArchiveWriter) :
    finalize K indexNonce files total arch = match (arch.closed files total).sealIndex K indexNonce with
      | .ok r => ArchiveWriter.writeIndex arch.filePosition r.1 r.2 (arch.closed files total)
      | .error e => (.error e, arch.closed files total) := by
  show (Act.lift ((arch.closed files total).sealIndex K indexNonce) >>= fun r =>
    ArchiveWriter.writeIndex arch.filePosition r.1 r.2) (arch.closed files total) = _
  cases (arch.closed files total).sealIndex K indexNonce <;> rfl

/-- **What `Finalize` writes**: the sealed index and its footer, and nothing after them. -/
theorem finalize_ok {files : List FileEntry} {total : Nat} {arch arch' : ArchiveWriter}
    (h : finalize K indexNonce files total arch = (.ok (), arch')) :
    ∃ sealedIndex footer w, (arch.closed files total).sealIndex K indexNonce = .ok (sealedIndex, footer) ∧
      arch' = { arch.closed files total with writer := w } ∧
      w.pos = arch.writer.pos + sealedIndex.length + 29 ∧
      (arch.writer.pos ≤ arch.writer.bytes.length →
        w.bytes = setLen (arch.filePosition + sealedIndex.length + 29)
          (overwrite arch.writer.pos (sealedIndex ++ footer.serialize) arch.writer.bytes)) := by
  rw [finalize_eq] at h
  split at h
  · rename_i r hseal
    obtain ⟨sealedIndex, footer⟩ := r
    obtain ⟨_, _, h1, h⟩ := Act.bind_eq_ok.1 h
    obtain ⟨w₁, hw₁, rfl⟩ := onFile_ok h1
    obtain ⟨_, _, h1, h⟩ := Act.bind_eq_ok.1 h
    obtain ⟨w₂, hw₂, rfl⟩ := onFile_ok h1
    obtain ⟨_, _, h1, h⟩ := Act.bind_eq_ok.1 h
    obtain ⟨w₃, hw₃, rfl⟩ := onFile_ok h1
    obtain ⟨w₄, hw₄, rfl⟩ := onFile_ok h
    refine ⟨sealedIndex, footer, w₄, hseal, rfl, ?_, fun hpos => ?_⟩
    · rw [Sink.setLen_ok hw₄, Sink.flush_ok hw₃, (Sink.writeAll_ok hw₂).pos, Footer.length_serialize]
      exact congrArg (· + 29) (Sink.writeAll_ok hw₁).pos
    · have hwrote := (Sink.writeAll_ok hw₁).trans hpos (Sink.writeAll_ok hw₂)
      rw [Sink.setLen_ok hw₄, Sink.flush_ok hw₃, hwrote.bytes, Footer.length_serialize]
  · cases h

/-- When the recorded position is that of the file, the index follows the blocks. -/
theorem finalize_bytes {arch : ArchiveWriter} {sealedIndex : Bytes} {footer : Footer}
    (hpos : arch.writer.pos ≤ arch.writer.bytes.length) (hfile : arch.filePosition = arch.writer.pos) :
    setLen (arch.filePosition + sealedIndex.length + 29)
        (overwrite arch.writer.pos (sealedIndex ++ footer.serialize) arch.writer.bytes)
      = arch.writer.bytes.take arch.writer.pos ++ (sealedIndex ++ footer.serialize) := by
  have hlen : arch.filePosition + sealedIndex.length + 29
      = arch.writer.pos + (sealedIndex ++ footer.serialize).length := by
    rw [hfile, List.length_append, Footer.length_serialize, Nat.add_assoc]
  rw [hlen, setLen_overwrite hpos]

/-- A call on a reliable file. -/
theorem onFile_reliable {x : Act Sink Errno Unit} (hx : Sink.Succeeds x) {arch : ArchiveWriter}
    (hr : arch.writer.Reliable) : ∃ arch', onFile x arch = (.ok (), arch') ∧ arch'.writer.Reliable := by
  obtain ⟨w, hw, hw'⟩ := hx arch.writer hr
  exact ⟨{ arch with writer := w }, by unfold onFile Act.mapErr Act.zoom; rw [hw], hw'⟩

/-- On a reliable file the blocks are written. -/
theorem writeBlocks_reliable : ∀ (bs : List ProcessedBlock) {arch : ArchiveWriter}, arch.writer.Reliable →
    ∃ arch', writeBlocks bs arch = (.ok (), arch') ∧ arch'.writer.Reliable
  | [], arch, hr => ⟨arch, rfl, hr⟩
  | b :: bs, arch, hr => by
    obtain ⟨arch₁, h1, hr₁⟩ := onFile_reliable (Sink.writeAll_succeeds b.processedData) hr
    obtain ⟨arch₂, h2, hr₂⟩ := writeBlocks_reliable bs (show (arch₁.record b).writer.Reliable from hr₁)
    refine ⟨arch₂, ?_, hr₂⟩
    rw [writeBlocks, writeBlock, bind_assoc, Act.bind_of_ok h1]
    exact h2

/-- On a reliable file an index that can be sealed is written. -/
theorem finalize_reliable {files : List FileEntry} {total : Nat} {arch : ArchiveWriter} (hr : arch.writer.Reliable)
    {r : Bytes × Footer} (hseal : (arch.closed files total).sealIndex K indexNonce = .ok r) :
    ∃ arch', finalize K indexNonce files total arch = (.ok (), arch') := by
  rw [finalize_eq, hseal]
  obtain ⟨arch₁, h1, hr₁⟩ := onFile_reliable (Sink.writeAll_succeeds r.1)
    (show (arch.closed files total).writer.Reliable from hr)
  obtain ⟨arch₂, h2, hr₂⟩ := onFile_reliable (Sink.writeAll_succeeds r.2.serialize) hr₁
  obtain ⟨arch₃, h3, hr₃⟩ := onFile_reliable Sink.flush_succeeds hr₂
  obtain ⟨arch₄, h4, _⟩ := onFile_reliable (Sink.setLen_succeeds
    (arch.filePosition + r.1.length + r.2.serialize.length)) hr₃
  refine ⟨arch₄, ?_⟩
  show ArchiveWriter.writeIndex _ _ _ _ = _
  rw [ArchiveWriter.writeIndex, Act.bind_of_ok h1, Act.bind_of_ok h2, Act.bind_of_ok h3]
  exact h4

/-- The header is written when the first call on the file does not fail. -/
theorem ArchiveWriter.writeHeader_eq {h : Header} {headerBytes : Bytes} (hvec : K.headerToVec h = some headerBytes)
    (faults : Nat → Option Nat) (hfaults : faults 0 = none) (cipher : Cipher) :
    writeHeader K h cipher (Sink.create faults) = .ok {
      writer := (Sink.create faults).put (leBytes 4 (u32 headerBytes.length) ++ headerBytes)
      index := ⟨[], [], 0⟩
      streamPosition := 0
      filePosition := (leBytes 4 (u32 headerBytes.length) ++ headerBytes).length
      cipher := cipher
      header := h } := by
  have hwrite : Sink.writeAll (leBytes 4 (u32 headerBytes.length) ++ headerBytes) (Sink.create faults)
      = (.ok (), (Sink.create faults).put (leBytes 4 (u32 headerBytes.length) ++ headerBytes)) := by
    unfold Sink.writeAll
    rw [show (Sink.create faults).faults (Sink.create faults).calls = none from hfaults]
  unfold writeHeader
  rw [hvec]
  simp only [Option.elim_some, Except.ok_bind, hwrite]

/-- **A new archive** is its header, with its length in front. -/
theorem ArchiveWriter.new_ok {faults : Nat → Option Nat} {h : Header} {prompts : Prompts} {confirm : Bool}
    {arch : ArchiveWriter}
    (hnew : ArchiveWriter.new K (some (Sink.create faults)) h prompts confirm = .ok arch) :
    ∃ headerBytes, K.headerToVec h = some headerBytes ∧ Cipher.new K prompts h confirm = .ok arch.cipher ∧
      arch.header = h ∧ arch.index = ⟨[], [], 0⟩ ∧ arch.filePosition = arch.writer.pos ∧
      arch.writer.pos = arch.writer.bytes.length ∧
      arch.writer.bytes = leBytes 4 (u32 headerBytes.length) ++ headerBytes := by
  obtain ⟨cipher, hcipher, hnew⟩ := Except.bind_eq_ok.1 hnew
  obtain ⟨sink, hsink, hnew⟩ := Except.bind_eq_ok.1 hnew
  obtain rfl : Sink.create faults = sink := Except.ok.inj hsink
  obtain ⟨headerBytes, hvec, hnew⟩ := Except.bind_eq_ok.1 hnew
  dsimp only at hnew
  split at hnew
  · cases hnew
  · rename_i w hw
    cases hnew
    have hwrote := Sink.writeAll_ok hw
    have hbytes : w.bytes = leBytes 4 (u32 headerBytes.length) ++ headerBytes := by
      rw [hwrote.bytes]; exact overwrite_end _ []
    have hpos : w.pos = (leBytes 4 (u32 headerBytes.length) ++ headerBytes).length := by
      rw [hwrote.pos]; exact Nat.zero_add _
    exact ⟨headerBytes, elim_ok hvec, hcipher, rfl, rfl, hpos.symm, hpos.trans (hbytes ▸ rfl), hbytes⟩

/-- A new archive has no blocks. -/
theorem ArchiveWriter.new_blocks {faults : Nat → Option Nat} {h : Header} {prompts : Prompts} {confirm : Bool}
    {arch : ArchiveWriter} (hnew : ArchiveWriter.new K (some (Sink.create faults)) h prompts confirm = .ok arch) :
    arch.index.block = [] := by
  obtain ⟨_, _, _, _, hindex, _⟩ := ArchiveWriter.new_ok hnew
  rw [hindex]

/-! ## The parallel writer -/

/-- **The parallel writer refines the sequential one.** Blocks numbered on from the index may arrive in any order: the
outcome, the file and the index are those of increasing order. At `Finalize` nothing is queued, a block's entry stands
at its number, and the entries follow each other in the file. -/
theorem writer_refines_sequential {arch : ArchiveWriter} {blocks arrivals : List ProcessedBlock}
    (hids : blocks.map ProcessedBlock.id = List.range' arch.index.block.length blocks.length)
    (hperm : arrivals.Perm blocks) (hlen : ∀ b ∈ blocks, b.processedData.length < 2 ^ 32) (files : List FileEntry)
    (total : Nat) :
    writer K indexNonce (arrivals.map .block ++ [.finalize files total]) arch
      = writer K indexNonce (blocks.map .block ++ [.finalize files total]) arch ∧
    ∀ arch', writer K indexNonce (arrivals.map .block ++ [.finalize files total]) arch = (.ok (), arch') →
      (∃ mid, absorb arrivals ([], arch.index.block.length) arch
        = (.ok ([], arch.index.block.length + blocks.length), mid)) ∧
      arch'.index.block.length = arch.index.block.length + blocks.length ∧
      (∀ b ∈ blocks, ∃ off, arch'.index.block[b.id]? = some (b.entry off) ∧
        (b.entry off).sizeStored = b.processedData.length) ∧
      (∃ new, arch'.index.block = arch.index.block ++ new ∧ Contiguous arch.filePosition new arch'.filePosition) ∧
      ∀ start, Contiguous start arch.index.block arch.filePosition →
        Contiguous start arch'.index.block arch'.filePosition := by
  refine ⟨by rw [writer_eq K indexNonce hids hperm, writer_eq K indexNonce hids (List.Perm.refl _)], ?_⟩
  intro arch' h
  rw [writer_eq K indexNonce hids hperm] at h
  obtain ⟨_, mid, hblocks, hfinal⟩ := Act.bind_eq_ok.1 h
  have happ := writeBlocks_ok hblocks
  obtain ⟨_, _, w, _, rfl, _, _⟩ := finalize_ok hfinal
  have hnew := contiguous_blockEntries arch.filePosition blocks
  rw [← happ.filePosition] at hnew
  have hblock : ({ mid.closed files total with writer := w } : ArchiveWriter).index.block
      = arch.index.block ++ blockEntries arch.filePosition blocks := happ.block
  rw [hblock]
  refine ⟨⟨mid, ?_⟩, by simp, fun b hb => ?_, ⟨_, rfl, hnew⟩, fun start hstart => hstart.append hnew⟩
  · rw [absorb_perm hids hperm, Act.bind_of_ok hblocks]; rfl
  · obtain ⟨i, hi⟩ := List.mem_iff_getElem?.1 hb
    have hid : b.id = arch.index.block.length + i := by
      have h1 : (blocks.map ProcessedBlock.id)[i]? = some b.id := by simp [hi]
      have hlt : i < blocks.length := (List.getElem?_eq_some_iff.1 hi).1
      rw [hids, List.getElem?_range' (by simpa using hlt)] at h1
      simpa using (Option.some.inj h1).symm
    obtain ⟨off, hoff⟩ := getElem?_blockEntries arch.filePosition hi
    refine ⟨off, ?_, u32_of_lt (hlen b hb)⟩
    rw [hid, List.getElem?_append_right (by omega), Nat.add_sub_cancel_left]
    exact hoff

/-- Two blocks that arrive in the wrong order are written in the right one. -/
theorem writer_refines_sequential_two :
    let block (id : Nat) (d : Bytes) : ProcessedBlock :=
      ⟨id, d, d.length, false, Vector.replicate 12 0, Vector.replicate 32 0⟩
    let arch : ArchiveWriter := ⟨Sink.create fun _ => none, ⟨[], [], 0⟩, 0, 0, .none, Header.stored 2⟩
    let K := Crates.tabled [] [⟨[], [(block 0 [1, 2]).entry 0, (block 1 [3]).entry 2], 3⟩]
    let run := writer K (Vector.replicate 12 0) ([block 1 [3], block 0 [1, 2]].map .block ++ [.finalize [] 3]) arch
    run.1 = .ok () ∧ run.2.writer.bytes.take 3 = [1, 2, 3] ∧ run.2.index.block.length = 2 ∧
      run = writer K (Vector.replicate 12 0) ([block 0 [1, 2], block 1 [3]].map .block ++ [.finalize [] 3]) arch := by
  intro block arch K run
  have hrun := @writer_refines_sequential K (Vector.replicate 12 0) arch [block 0 [1, 2], block 1 [3]]
    [block 1 [3], block 0 [1, 2]] rfl (List.Perm.swap _ _ _) (by decide) [] 3
  have hok : run.1 = .ok () := by decide +kernel
  exact ⟨hok, by decide +kernel, (hrun.2 run.2 (Act.run_of_ok hok)).2.1, hrun.1⟩

end Cryo
