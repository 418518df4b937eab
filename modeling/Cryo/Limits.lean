import Cryo.Decompress
import Cryo.Lib.Trace
import Cryo.Verify

/-!
# Limits before use

The runs of `retrieve`, `verify` and `extract_file` with a log of what they use: every quantity that comes from the file
and becomes the length of a buffer, the cap of a decompression or the memory of Argon2 is logged where it is used, and
so is every write to the output. Without the log they are the runs of the model (`Traced.retrieve_erases`,
`Traced.verify_erases`, `Traced.extractFile_erases`).

* `retrieve_within`, `extractFile_within`: everything that loading and extracting log is within its limit, on every
  input.
* `limits_enforced_iff`: when everything is, verifying included.
* `verify_hashes_long_block`: an archive on which `verify` hashes a block above the limit.
-/

namespace Cryo

open Posix Bytes

/-- One use of a quantity. -/
inductive Use where
  | headerBuffer (size : Nat)
  | argonMemory (cost : Nat)
  | indexBuffer (stored : Nat)
  | indexCap (plain : Nat)
  | writeBuffer (capacity : Nat)
  | blockBuffer (stored : Nat)
  | blockCap (plain : Nat)
  | blockPlain (length : Nat)
  | output (count : Nat)
  deriving DecidableEq

/-- The limit that a use is held to; the bytes of the output are limited together. -/
def Use.Within (limits : Limits) : Use → Prop
  | .headerBuffer n => n ≤ limits.effMaxHeader
  | .argonMemory n => n ≤ limits.effMaxM
  | .indexBuffer n | .indexCap n => n ≤ limits.effMaxIndex
  | .writeBuffer n | .blockCap n | .blockPlain n => n ≤ limits.effMaxBlock
  | .blockBuffer n => n ≤ limits.effMaxBlock + STORED_BLOCK_OVERHEAD
  | .output _ => True

/-- The bytes written to the output. -/
def Use.written : Use → Nat
  | .output n => n
  | _ => 0

def outputBytes (log : List Use) : Nat := (log.map Use.written).sum

/-- Runs on a state `σ` that log what they use. -/
abbrev LogM (σ : Type) := Act (σ × List Use) Halt

abbrev TraceM := LogM World

variable (K : Crates)

namespace Traced

def checked {σ α : Type} (r : Result α) : LogM σ α := Act.lift (r.mapError .err)

/-! ## Loading -/

def retrieveHeader (f : Bytes) (p : Path) (limits : Limits) : TraceM Header := do
  let headerSizeBytes ← checked (ioFailed p (readAt f 0 4))
  let headerSize := leVal headerSizeBytes
  checked (failIf (headerSize > limits.effMaxHeader) (.headerTooLarge headerSize limits.effMaxHeader))
  Act.record (.headerBuffer headerSize)
  let headerBytes ← checked (ioFailed p (readAt f 4 headerSize))
  let header ← checked ((K.headerFromSlice headerBytes).elim (.error .deserializationFailed) .ok)
  checked (verifyMetadata header)
  checked (failIf (header.blockSize > limits.effMaxBlock) (.blockTooLarge header.blockSize limits.effMaxBlock))
  checked (failIf (header.argonParams.1 > limits.effMaxM)
    (.mCostTooLarge (header.argonParams.1 * 1024) (limits.effMaxM * 1024)))
  checked (.ok header)

def newCipher (prompts : Prompts) (h : Header) (confirm : Bool) : TraceM Cipher :=
  if h.encryption ≠ .none then
    if K.argonParams h.argonParams then do
      let password ← checked (readPassword prompts confirm)
      Act.record (.argonMemory h.argonParams.1)
      checked (match K.argon2 h.argonParams h.argonSalt password with
        | .some key => .ok (if h.encryption = .aes then Cipher.aes key else Cipher.chacha key)
        | .none => .error (.cryptographicError "Argon2 failure"))
    else checked (.error (.cryptographicError "Failed to initialize argon2 params"))
  else checked (.ok Cipher.none)

def unpackIndex (header : Header) (footer : Footer) (indexBytes : Bytes) : TraceM Bytes :=
  if footer.indexCompressed then do
    let engine ← checked (DecompressingEngine.new K header.compression)
    Act.record (.indexCap footer.indexSizePlain)
    checked (engine.decompress K indexBytes footer.indexSizePlain)
  else checked (.ok indexBytes)

def retrieveIndex (f : Bytes) (p : Path) (header : Header) (footer : Footer) (cipher : Cipher) : TraceM Index := do
  Act.record (.indexBuffer footer.indexSizeStored)
  checked (ioFailed p (seekStart footer.indexOffset))
  let stored ← checked (ioFailed p (readAt f footer.indexOffset footer.indexSizeStored))
  let opened ← checked (openStored K (.index footer.indexNonce) cipher header stored 0)
  let indexBytes ← unpackIndex K header footer opened
  checked ((K.indexFromSlice indexBytes).elim (.error .deserializationFailed) .ok)

def retrieve (f : Bytes) (p : Path) (limits : Limits) (prompts : Prompts) (confirm : Bool) : TraceM FileStructs := do
  let header ← retrieveHeader K f p limits
  let footer ← checked (Cryo.retrieveFooter f p limits)
  let cipher ← newCipher K prompts header confirm
  let index ← retrieveIndex K f p header footer cipher
  checked (.ok ⟨header, index, cipher, footer⟩)

/-! ## Blocks -/

variable {σ : Type} (r : ArchiveReader)

def unpackBlock (engine : DecompressingEngine) (block : BlockEntry) (decrypted : Bytes) : LogM σ Bytes :=
  if block.isCompressed then do
    Act.record (.blockCap block.sizePlain)
    checked (engine.decompress K decrypted block.sizePlain)
  else checked (.ok decrypted)

def readBlock (block : BlockEntry) (blockNum : Nat) (engine : DecompressingEngine) : LogM σ Bytes := do
  checked (failIf (block.sizePlain > r.header.blockSize) (.blockTooLarge block.sizePlain r.header.blockSize))
  checked (failIf (block.sizeStored > r.header.maxStored) (.blockTooLarge block.sizeStored r.header.maxStored))
  checked (ioFailed r.path (seekStart block.offset))
  Act.record (.blockBuffer block.sizeStored)
  let stored ← checked (ioFailed r.path (readAt r.reader block.offset block.sizeStored))
  let decrypted ← checked (openStored K (.block block.nonce) r.cipher r.header stored blockNum)
  let plain ← unpackBlock K engine block decrypted
  checked (failIf (plain.length ≠ block.sizePlain) .decompressionError)
  Act.record (.blockPlain plain.length)
  checked (.ok plain)

def verifyBlock (p : Path) (engine : DecompressingEngine) (i : Nat) (block : BlockEntry) : TraceM Unit := do
  checked (failIf (block.sizePlain > r.header.blockSize) (.blockTooLarge block.sizePlain r.header.blockSize))
  checked (failIf (block.sizeStored > r.header.maxStored) (.blockTooLarge block.sizeStored r.header.maxStored))
  checked (ioFailed p (seekStart block.offset))
  Act.record (.blockBuffer block.sizeStored)
  let stored ← checked (ioFailed p (readAt r.reader block.offset block.sizeStored))
  let decrypted ← checked (decryptBlock K (.block block.nonce) r.cipher r.header stored i)
  let plain ← unpackBlock K engine block decrypted
  Act.record (.blockPlain plain.length)
  checked (failIf (K.blake3 plain ≠ block.checksum) .checksumMismatch)

def verifyBlocks (p : Path) (engine : DecompressingEngine) : Nat → List BlockEntry → TraceM Unit
  | _, [] => checked (.ok ())
  | i, block :: blocks => do
    verifyBlock K r p engine i block
    verifyBlocks p engine (i + 1) blocks

def verify (p : Path) : TraceM Unit := do
  let engine ← checked (DecompressingEngine.new K r.header.compression)
  verifyBlocks K r p engine 0 r.index.block

/-! ## Entries -/

def blockSlice (fileStart fileEnd : Nat) (engine : DecompressingEngine) (block : BlockEntry) (i start stop : Nat) :
    LogM σ Bytes := do
  let plain ← readBlock K r block i engine
  checked (failIf (K.blake3 plain ≠ block.checksum) .decompressionError)
  checked (failIf (fileStart - start > min fileEnd stop - start ∨ min fileEnd stop - start > plain.length)
    .decompressionError)
  checked (.ok (slice (fileStart - start) (min fileEnd stop - start - (fileStart - start)) plain))

def extractBlocks (fileStart fileEnd : Nat) (engine : DecompressingEngine) :
    List ((Nat × Nat) × Nat) → LogM (World × BufWriter) Unit
  | [] => pure ()
  | ((start, stop), i) :: rest =>
    match r.index.block[i]? with
    | none => Act.throw (.panic "index out of bounds")
    | some block =>
      if stop ≤ fileStart ∨ start ≥ fileEnd then pure ()
      else do
        let piece ← blockSlice K r fileStart fileEnd engine block i start stop
        Act.record (.output piece.length)
        Act.onState (osCall .writeError (BufWriter.writeAll piece))
        extractBlocks fileStart fileEnd engine rest

def writeRegular (f : FileEntry) (fileEnd : Nat) (outDir : Path) (blocks : List (Nat × Nat)) :
    LogM (World × BufWriter) Unit := do
  let time ← Act.lift (systemTime f.timestamp)
  let first := partitionPoint (fun b => b.2 ≤ f.streamOffset) blocks
  let engine ← checked (DecompressingEngine.new K r.header.compression)
  extractBlocks K r f.streamOffset fileEnd engine (blocks.zipIdx.drop first)
  Act.onState (ArchiveReader.finishRegular outDir f.permissions time)

def extractRegular (f : FileEntry) (fileEnd : Nat) (outDir : Path) (blocks : List (Nat × Nat)) : TraceM Unit := do
  let file ← Act.onState (osCall .writeError (createFile outDir))
  Act.record (.writeBuffer r.header.blockSize)
  Act.lift (allocBuffer r.header.blockSize)
  Act.zoomState (fun w => (w, .withCapacity r.header.blockSize file)) (fun _ s => s.2.dropped s.1)
    (writeRegular K r f fileEnd outDir blocks)

def extractFile (f : FileEntry) (outDir : Path) (blocks : List (Nat × Nat)) : TraceM Unit := do
  let fileEnd ← checked (r.checkEntry f)
  Act.onState (ArchiveReader.createParent outDir)
  match f.ftype with
  | .dir => Act.onState (osCall .writeError (createDirAll outDir))
  | .symlink => Act.onState (r.extractSymlink f outDir)
  | .file => extractRegular K r f fileEnd outDir blocks

/-! ## Without the log -/

section Erasing

variable {K : Crates} {r : ArchiveReader} {σ : Type}

theorem liftResult_bind {α β : Type} (x : Result α) (f : α → Result β) :
    (liftResult (x >>= f) : Act σ Halt β) = liftResult x >>= fun a => liftResult (f a) := by
  cases x <;> rfl

theorem erases_checked {α : Type} (x : Result α) :
    Act.Erases (checked x : LogM σ α) (liftResult x) := Act.Erases.lift _

theorem erases_checked_bind {α β : Type} (x : Result α) {y : α → LogM σ β} {f : α → Act σ Halt β}
    (h : ∀ a, Act.Erases (y a) (f a)) : Act.Erases (checked x >>= y) (liftResult x >>= f) :=
  (erases_checked x).bind h

theorem retrieveHeader_erases (f : Bytes) (p : Path) (limits : Limits) :
    Act.Erases (retrieveHeader K f p limits) (liftResult (Cryo.retrieveHeader K f p limits)) := by
  unfold retrieveHeader Cryo.retrieveHeader
  simp only [liftResult_bind]
  refine erases_checked_bind _ fun size => erases_checked_bind _ fun _ => Act.Erases.record_bind ?_
  refine erases_checked_bind _ fun headerBytes => erases_checked_bind _ fun header => ?_
  exact erases_checked_bind _ fun _ => erases_checked_bind _ fun _ => erases_checked_bind _ fun _ => erases_checked _

theorem newCipher_erases (prompts : Prompts) (h : Header) (confirm : Bool) :
    Act.Erases (newCipher K prompts h confirm) (liftResult (Cipher.new K prompts h confirm)) := by
  unfold newCipher Cipher.new
  split
  · split
    · rw [liftResult_bind]
      refine erases_checked_bind _ fun password => Act.Erases.record_bind ?_
      exact erases_checked _
    · exact erases_checked _
  · exact erases_checked _

theorem unpackIndex_erases (header : Header) (footer : Footer) (indexBytes : Bytes) :
    Act.Erases (unpackIndex K header footer indexBytes) (liftResult (Cryo.unpackIndex K header footer indexBytes)) := by
  unfold unpackIndex Cryo.unpackIndex
  split
  · rw [liftResult_bind]
    exact erases_checked_bind _ fun engine => Act.Erases.record_bind (erases_checked _)
  · exact erases_checked _

theorem retrieveIndex_erases (f : Bytes) (p : Path) (header : Header) (footer : Footer) (cipher : Cipher) :
    Act.Erases (retrieveIndex K f p header footer cipher)
      (liftResult (Cryo.retrieveIndex K f p header footer cipher)) := by
  unfold retrieveIndex Cryo.retrieveIndex
  simp only [liftResult_bind]
  refine Act.Erases.record_bind (erases_checked_bind _ fun _ => erases_checked_bind _ fun stored => ?_)
  refine erases_checked_bind _ fun opened => (unpackIndex_erases _ _ _).bind fun indexBytes => ?_
  exact erases_checked _

/-- **Loading with a log is loading.** -/
theorem retrieve_erases (f : Bytes) (p : Path) (limits : Limits) (prompts : Prompts) (confirm : Bool) :
    Act.Erases (retrieve K f p limits prompts confirm) (liftResult (Cryo.retrieve K f p limits prompts confirm)) := by
  unfold retrieve Cryo.retrieve
  simp only [liftResult_bind]
  refine (retrieveHeader_erases f p limits).bind fun header => erases_checked_bind _ fun footer => ?_
  refine (newCipher_erases prompts header confirm).bind fun cipher => ?_
  exact (retrieveIndex_erases f p header footer cipher).bind fun index => erases_checked _

theorem unpackBlock_erases (engine : DecompressingEngine) (block : BlockEntry) (decrypted : Bytes) :
    Act.Erases (unpackBlock K engine block decrypted : LogM σ Bytes)
      (liftResult (Cryo.unpackBlock K engine block decrypted)) := by
  unfold unpackBlock Cryo.unpackBlock
  split
  · exact Act.Erases.record_bind (erases_checked _)
  · exact erases_checked _

theorem readBlock_erases (block : BlockEntry) (i : Nat) (engine : DecompressingEngine) :
    Act.Erases (readBlock K r block i engine : LogM σ Bytes) (liftResult (r.readBlock K block i engine)) := by
  unfold readBlock ArchiveReader.readBlock
  simp only [liftResult_bind]
  refine erases_checked_bind _ fun _ => erases_checked_bind _ fun _ => erases_checked_bind _ fun _ => ?_
  refine Act.Erases.record_bind (erases_checked_bind _ fun stored => erases_checked_bind _ fun decrypted => ?_)
  refine (unpackBlock_erases _ _ _).bind fun plain => erases_checked_bind _ fun _ => ?_
  exact Act.Erases.record_bind (erases_checked _)

theorem verifyBlock_erases (p : Path) (engine : DecompressingEngine) (i : Nat) (block : BlockEntry) :
    Act.Erases (verifyBlock K r p engine i block) (liftResult (r.verifyBlock K p engine i block)) := by
  unfold verifyBlock ArchiveReader.verifyBlock
  simp only [liftResult_bind]
  refine erases_checked_bind _ fun _ => erases_checked_bind _ fun _ => erases_checked_bind _ fun _ => ?_
  refine Act.Erases.record_bind (erases_checked_bind _ fun stored => erases_checked_bind _ fun decrypted => ?_)
  exact (unpackBlock_erases _ _ _).bind fun plain => Act.Erases.record_bind (erases_checked _)

theorem verifyBlocks_erases (p : Path) (engine : DecompressingEngine) : ∀ (blocks : List BlockEntry) (i : Nat),
    Act.Erases (verifyBlocks K r p engine i blocks) (liftResult (r.verifyBlocks K p engine i blocks))
  | [], _ => erases_checked _
  | block :: blocks, i => by
    unfold verifyBlocks ArchiveReader.verifyBlocks
    rw [liftResult_bind]
    exact (verifyBlock_erases p engine i block).bind fun _ => verifyBlocks_erases p engine blocks (i + 1)

/-- **Verifying with a log is verifying.** -/
theorem verify_erases (p : Path) : Act.Erases (verify K r p) (liftResult (r.verify K p)) := by
  unfold verify ArchiveReader.verify
  rw [liftResult_bind]
  exact erases_checked_bind _ fun engine => verifyBlocks_erases p engine _ 0

theorem blockSlice_erases (a b : Nat) (engine : DecompressingEngine) (block : BlockEntry) (i start stop : Nat) :
    Act.Erases (blockSlice K r a b engine block i start stop : LogM σ Bytes)
      (liftResult (r.blockSlice K a b engine block i start stop)) := by
  unfold blockSlice ArchiveReader.blockSlice
  simp only [liftResult_bind]
  refine (readBlock_erases block i engine).bind fun plain => erases_checked_bind _ fun _ => ?_
  exact erases_checked_bind _ fun _ => erases_checked _

theorem extractBlocks_erases (a b : Nat) (engine : DecompressingEngine) :
    ∀ blocks : List ((Nat × Nat) × Nat),
      Act.Erases (extractBlocks K r a b engine blocks) (r.extractBlocks K a b engine blocks)
  | [] => Act.Erases.pure _
  | ((start, stop), i) :: rest => by
    unfold extractBlocks ArchiveReader.extractBlocks
    cases r.index.block[i]? with
    | none => exact Act.Erases.throw _
    | some block =>
      dsimp only
      split
      · exact Act.Erases.pure _
      · refine (blockSlice_erases a b engine block i start stop).bind fun piece => Act.Erases.record_bind ?_
        exact (Act.Erases.onState _).bind fun _ => extractBlocks_erases a b engine rest

theorem writeRegular_erases (f : FileEntry) (stop : Nat) (outDir : Path) (blocks : List (Nat × Nat)) :
    Act.Erases (writeRegular K r f stop outDir blocks) (r.writeRegular K f stop outDir blocks) := by
  unfold writeRegular ArchiveReader.writeRegular
  refine (Act.Erases.lift _).bind fun time => erases_checked_bind _ fun engine => ?_
  exact (extractBlocks_erases _ _ _ _).bind fun _ => Act.Erases.onState _

theorem extractRegular_erases (f : FileEntry) (stop : Nat) (outDir : Path) (blocks : List (Nat × Nat)) :
    Act.Erases (extractRegular K r f stop outDir blocks) (r.extractRegular K f stop outDir blocks) := by
  unfold extractRegular ArchiveReader.extractRegular
  refine (Act.Erases.onState _).bind fun file => Act.Erases.record_bind ?_
  exact (Act.Erases.lift _).bind fun _ => (writeRegular_erases f stop outDir blocks).zoomState _ _

/-- **Extracting with a log is extracting.** -/
theorem extractFile_erases (f : FileEntry) (outDir : Path) (blocks : List (Nat × Nat)) :
    Act.Erases (extractFile K r f outDir blocks) (r.extractFile K f outDir blocks) := by
  unfold extractFile ArchiveReader.extractFile
  refine erases_checked_bind _ fun stop => (Act.Erases.onState _).bind fun _ => ?_
  cases f.ftype with
  | dir => exact Act.Erases.onState _
  | symlink => exact Act.Erases.onState _
  | file => exact extractRegular_erases f stop outDir blocks

end Erasing

/-! ## What the log holds -/

/-- A property of logs that further uses within the limits keep, the writes of output apart. -/
def Closed (limits : Limits) (R : List Use → Prop) : Prop :=
  ∀ log u, R log → u.Within limits → u.written = 0 → R (log ++ [u])

/-- `R` holds of the log after every outcome if it held before, and what is returned satisfies `Q`. -/
abbrev Kept {σ α : Type} (R : List Use → Prop) (x : LogM σ α) (Q : α → Prop) : Prop :=
  Act.Ensures (fun s : σ × List Use => R s.2) x Q

/-- The blocks from the `n`-th on that `verify` comes to, all blocks before them being sound, open to at most `limit`
bytes, if they open. -/
def OpenWithin (r : ArchiveReader) (limit : Nat) (engine : DecompressingEngine) (n : Nat) (blocks : List BlockEntry) :
    Prop :=
  ∀ i block plain, blocks[i]? = some block → (∀ j b, j < i → blocks[j]? = some b → r.Sound K b (n + j) engine) →
    r.openBlock K block (n + i) engine = .ok plain → plain.length ≤ limit

section Keeping

variable {K : Crates} {r : ArchiveReader} {σ : Type} {limits : Limits} {R : List Use → Prop}

theorem OpenWithin.head {limit n : Nat} {engine : DecompressingEngine} {block : BlockEntry} {blocks : List BlockEntry}
    (h : OpenWithin K r limit engine n (block :: blocks)) {plain : Bytes}
    (hopen : r.openBlock K block n engine = .ok plain) : plain.length ≤ limit :=
  h 0 block plain rfl (fun _ _ hj => absurd hj (Nat.not_lt_zero _)) hopen

theorem OpenWithin.tail {limit n : Nat} {engine : DecompressingEngine} {block : BlockEntry} {blocks : List BlockEntry}
    (h : OpenWithin K r limit engine n (block :: blocks)) (hsound : r.Sound K block n engine) :
    OpenWithin K r limit engine (n + 1) blocks := by
  intro i b plain hi hbefore hopen
  refine h (i + 1) b plain (by simpa using hi) (fun j c hj hc => ?_) (by rwa [← Nat.add_assoc, Nat.add_right_comm])
  cases j with
  | zero =>
    cases hc
    exact hsound
  | succ j =>
    rw [← Nat.add_assoc, Nat.add_right_comm]
    exact hbefore j c (Nat.lt_of_succ_lt_succ hj) (by simpa using hc)

theorem kept_checked {α : Type} {x : Result α} {Q : α → Prop} (h : ∀ a, x = .ok a → Q a) :
    Kept R (checked x : LogM σ α) Q :=
  Act.Ensures.lift fun a ha => h a (Except.mapError_eq_ok.1 ha)

theorem kept_any {α : Type} (x : Result α) : Kept R (checked x : LogM σ α) fun _ => True :=
  kept_checked fun _ _ => trivial

/-- After a check, what it checks. -/
theorem kept_failIf {bad : Prop} [Decidable bad] (e : CryoErrors) :
    Kept R (checked (failIf bad e) : LogM σ Unit) fun _ => ¬ bad :=
  kept_checked fun _ h => failIf_ok.1 h

theorem kept_record (hR : Closed limits R) (u : Use) (hu : u.Within limits) (h0 : u.written = 0) :
    Kept R (Act.record u : LogM σ Unit) fun _ => True :=
  Act.Ensures.of_keeps (Act.keeps_record fun log h => hR log u h hu h0)

theorem kept_onState {α : Type} (x : Act σ Halt α) : Kept R (Act.onState x) fun _ => True :=
  Act.Ensures.of_keeps (Act.keeps_onState x)

theorem retrieveHeader_kept (hR : Closed limits R) (f : Bytes) (p : Path) :
    Kept R (retrieveHeader K f p limits) fun h =>
      h.blockSize ≤ limits.effMaxBlock ∧ h.argonParams.1 ≤ limits.effMaxM := by
  unfold retrieveHeader
  refine (kept_any _).bind fun size _ => (kept_failIf _).bind fun _ hsize => ?_
  refine (kept_record hR (.headerBuffer _) (Nat.not_lt.1 hsize) rfl).bind fun _ _ =>
    (kept_any _).bind fun headerBytes _ => ?_
  refine (kept_any _).bind fun header _ => (kept_any _).bind fun _ _ => (kept_failIf _).bind fun _ hblock => ?_
  refine (kept_failIf _).bind fun _ hcost => kept_checked fun h hh => ?_
  cases hh
  exact ⟨Nat.not_lt.1 hblock, Nat.not_lt.1 hcost⟩

theorem newCipher_kept (hR : Closed limits R) {h : Header} (hcost : h.argonParams.1 ≤ limits.effMaxM)
    (prompts : Prompts) (confirm : Bool) : Kept R (newCipher K prompts h confirm) fun _ => True := by
  unfold newCipher
  split
  · split
    · exact (kept_any _).bind fun password _ => (kept_record hR (.argonMemory _) hcost rfl).bind fun _ _ => kept_any _
    · exact kept_any _
  · exact kept_any _

theorem unpackIndex_kept (hR : Closed limits R) {footer : Footer} (hplain : footer.indexSizePlain ≤ limits.effMaxIndex)
    (header : Header) (indexBytes : Bytes) : Kept R (unpackIndex K header footer indexBytes) fun _ => True := by
  unfold unpackIndex
  split
  · exact (kept_any _).bind fun engine _ => (kept_record hR (.indexCap _) hplain rfl).bind fun _ _ => kept_any _
  · exact kept_any _

theorem retrieveIndex_kept (hR : Closed limits R) {footer : Footer}
    (hstored : footer.indexSizeStored ≤ limits.effMaxIndex) (hplain : footer.indexSizePlain ≤ limits.effMaxIndex)
    (f : Bytes) (p : Path) (header : Header) (cipher : Cipher) :
    Kept R (retrieveIndex K f p header footer cipher) fun _ => True := by
  unfold retrieveIndex
  refine (kept_record hR (.indexBuffer _) hstored rfl).bind fun _ _ => (kept_any _).bind fun _ _ =>
    (kept_any _).bind fun stored _ => ?_
  refine (kept_any _).bind fun opened _ => (unpackIndex_kept hR hplain _ _).bind fun indexBytes _ => kept_any _

/-- **Loading uses nothing above its limit.** -/
theorem retrieve_kept (hR : Closed limits R) (f : Bytes) (p : Path) (prompts : Prompts) (confirm : Bool) :
    Kept R (retrieve K f p limits prompts confirm) fun _ => True := by
  unfold retrieve
  refine (retrieveHeader_kept hR f p).bind fun header hheader => ?_
  refine (kept_checked fun footer hfooter => hfooter).bind fun footer hfooter => ?_
  obtain ⟨_, _, _, _, _, hstored, hplain⟩ := retrieveFooter_ok.1 hfooter
  refine (newCipher_kept hR hheader.2 prompts confirm).bind fun cipher _ => ?_
  exact (retrieveIndex_kept hR hstored hplain f p header cipher).bind fun index _ => kept_any _

theorem unpackBlock_kept (hR : Closed limits R) {block : BlockEntry} (hplain : block.sizePlain ≤ limits.effMaxBlock)
    (engine : DecompressingEngine) (decrypted : Bytes) :
    Kept R (unpackBlock K engine block decrypted : LogM σ Bytes) fun plain =>
      Cryo.unpackBlock K engine block decrypted = .ok plain := by
  unfold unpackBlock Cryo.unpackBlock
  split
  · exact (kept_record hR (.blockCap _) hplain rfl).bind fun _ _ => kept_checked fun _ h => h
  · exact kept_checked fun _ h => h

/-- The check of a stored length bounds it by the limit. -/
theorem stored_within (hblock : r.header.blockSize ≤ limits.effMaxBlock) {n : Nat} (h : ¬ n > r.header.maxStored) :
    (Use.blockBuffer n).Within limits := by
  have hmax : r.header.maxStored ≤ r.header.blockSize + STORED_BLOCK_OVERHEAD := Nat.min_le_left _ _
  show n ≤ limits.effMaxBlock + STORED_BLOCK_OVERHEAD
  omega

theorem readBlock_kept (hR : Closed limits R) (hblock : r.header.blockSize ≤ limits.effMaxBlock) (block : BlockEntry)
    (i : Nat) (engine : DecompressingEngine) :
    Kept R (readBlock K r block i engine : LogM σ Bytes) fun plain => plain.length = block.sizePlain := by
  unfold readBlock
  refine (kept_failIf _).bind fun _ hplain => (kept_failIf _).bind fun _ hstored => (kept_any _).bind fun _ _ => ?_
  have hplain := Nat.le_trans (Nat.not_lt.1 hplain) hblock
  refine (kept_record hR (.blockBuffer _) (stored_within hblock hstored) rfl).bind fun _ _ =>
    (kept_any _).bind fun stored _ => ?_
  refine (kept_any _).bind fun decrypted _ => (unpackBlock_kept hR hplain _ _).bind fun plain _ => ?_
  refine (kept_failIf _).bind fun _ hlen => ?_
  have hlen := not_not.1 hlen
  refine (kept_record hR (.blockPlain _) (hlen ▸ hplain) rfl).bind fun _ _ => kept_checked fun a ha => ?_
  cases ha
  exact hlen

/-- Verifying a block uses nothing above its limit when what the block opens to is within it. -/
theorem verifyBlock_kept (hR : Closed limits R) (hblock : r.header.blockSize ≤ limits.effMaxBlock) (p : Path)
    (engine : DecompressingEngine) (i : Nat) (block : BlockEntry)
    (hopen : ∀ plain, r.openBlock K block i engine = .ok plain → plain.length ≤ limits.effMaxBlock) :
    Kept R (verifyBlock K r p engine i block) fun _ => r.Sound K block i engine := by
  unfold verifyBlock
  refine (kept_failIf _).bind fun _ hplain => (kept_failIf _).bind fun _ hstored => ?_
  refine (kept_checked fun _ h => h).bind fun _ hseek => ?_
  refine (kept_record hR (.blockBuffer _) (stored_within hblock hstored) rfl).bind fun _ _ => ?_
  refine (kept_checked fun _ h => h).bind fun stored hread => (kept_checked fun _ h => h).bind fun decrypted hdec => ?_
  refine (unpackBlock_kept hR (Nat.le_trans (Nat.not_lt.1 hplain) hblock) _ _).bind fun plain hunpack => ?_
  have hopened : r.openBlock K block i engine = .ok plain := ArchiveReader.openBlock_ok.2
    ⟨hplain, hstored, ioFailed_ok.1 hseek, stored, ioFailed_ok.1 hread, decrypted, hdec, hunpack⟩
  refine (kept_record hR (.blockPlain _) (hopen plain hopened) rfl).bind fun _ _ => kept_checked fun _ hsum => ?_
  exact ⟨plain, hopened, not_not.1 (failIf_ok.1 hsum)⟩

theorem verifyBlocks_kept (hR : Closed limits R) (hblock : r.header.blockSize ≤ limits.effMaxBlock) (p : Path)
    (engine : DecompressingEngine) : ∀ (blocks : List BlockEntry) (n : Nat),
    OpenWithin K r limits.effMaxBlock engine n blocks → Kept R (verifyBlocks K r p engine n blocks) fun _ => True
  | [], _, _ => kept_any _
  | block :: blocks, n, h => by
    unfold verifyBlocks
    refine (verifyBlock_kept hR hblock p engine n block fun plain => h.head).bind fun _ hsound => ?_
    exact verifyBlocks_kept hR hblock p engine blocks (n + 1) (h.tail hsound)

/-- **Verifying uses nothing above its limit** when what it comes to opens within it. -/
theorem verify_kept (hR : Closed limits R) (hblock : r.header.blockSize ≤ limits.effMaxBlock) (p : Path)
    (hopen : ∀ engine, DecompressingEngine.new K r.header.compression = .ok engine →
      OpenWithin K r limits.effMaxBlock engine 0 r.index.block) : Kept R (verify K r p) fun _ => True := by
  unfold verify
  exact (kept_checked fun _ h => h).bind fun engine hengine =>
    verifyBlocks_kept hR hblock p engine _ 0 (hopen engine hengine)

/-! What is in the log stays there. -/

theorem unpackBlock_mem (u : Use) (engine : DecompressingEngine) (block : BlockEntry) (decrypted : Bytes) :
    Act.Keeps (fun s : World × List Use => u ∈ s.2) (unpackBlock K engine block decrypted) := by
  unfold unpackBlock
  split
  · exact Act.keeps_bind (Act.keeps_record fun _ h => List.mem_append_left _ h) fun _ => Act.keeps_lift _
  · exact Act.keeps_lift _

theorem verifyBlock_mem (u : Use) (p : Path) (engine : DecompressingEngine) (i : Nat) (block : BlockEntry) :
    Act.Keeps (fun s : World × List Use => u ∈ s.2) (verifyBlock K r p engine i block) := by
  have hrecord : ∀ v, Act.Keeps (fun s : World × List Use => u ∈ s.2) (Act.record v : TraceM Unit) := fun v =>
    Act.keeps_record fun _ h => List.mem_append_left _ h
  unfold verifyBlock
  refine Act.keeps_bind (Act.keeps_lift _) fun _ => Act.keeps_bind (Act.keeps_lift _) fun _ => ?_
  refine Act.keeps_bind (Act.keeps_lift _) fun _ => Act.keeps_bind (hrecord _) fun _ => ?_
  refine Act.keeps_bind (Act.keeps_lift _) fun stored => Act.keeps_bind (Act.keeps_lift _) fun decrypted => ?_
  refine Act.keeps_bind (unpackBlock_mem u _ _ _) fun plain => ?_
  exact Act.keeps_bind (hrecord _) fun _ => Act.keeps_lift _

theorem verifyBlocks_mem (u : Use) (p : Path) (engine : DecompressingEngine) : ∀ (blocks : List BlockEntry) (n : Nat),
    Act.Keeps (fun s : World × List Use => u ∈ s.2) (verifyBlocks K r p engine n blocks)
  | [], _ => Act.keeps_lift _
  | block :: blocks, n => by
    unfold verifyBlocks
    exact Act.keeps_bind (verifyBlock_mem u p engine n block) fun _ => verifyBlocks_mem u p engine blocks (n + 1)

/-- A block that opens is hashed, whatever its length. -/
theorem verifyBlock_logs {block : BlockEntry} {i : Nat} {engine : DecompressingEngine} {plain : Bytes}
    (h : r.openBlock K block i engine = .ok plain) (p : Path) (st : World × List Use) :
    Act.wp (verifyBlock K r p engine i block) (fun _ s => .blockPlain plain.length ∈ s.2)
      (fun _ s => .blockPlain plain.length ∈ s.2) st := by
  obtain ⟨hplain, hstored, hseek, stored, hread, decrypted, hdec, hunpack⟩ := ArchiveReader.openBlock_ok.1 h
  have hunpack : ∃ log, unpackBlock K engine block decrypted (st.1, st.2 ++ [.blockBuffer block.sizeStored]) =
      (.ok plain, (st.1, log)) := by
    obtain ⟨hres, hst⟩ := unpackBlock_erases (K := K) engine block decrypted st.1
      (st.2 ++ [.blockBuffer block.sizeStored])
    rw [hunpack] at hres
    exact ⟨_, Prod.ext hres (Prod.ext hst rfl)⟩
  obtain ⟨log, hunpack⟩ := hunpack
  unfold verifyBlock
  simp only [checked, failIf_neg hplain, failIf_neg hstored, ioFailed_ok.2 hseek, ioFailed_ok.2 hread, hdec,
    Except.mapError, Act.lift_ok_bind]
  show Act.wp (unpackBlock K engine block decrypted >>= _) _ _ (st.1, st.2 ++ [.blockBuffer block.sizeStored])
  rw [Act.wp_bind]
  unfold Act.wp
  rw [hunpack]
  exact (Act.keeps_lift _ : Act.Keeps (fun s : World × List Use => Use.blockPlain plain.length ∈ s.2) _)
    (st.1, log ++ [.blockPlain plain.length]) (List.mem_append_right _ List.mem_cons_self)

/-- Behind sound blocks, too. -/
theorem verifyBlocks_logs {engine : DecompressingEngine} (p : Path) : ∀ {blocks : List BlockEntry} {n i : Nat}
    {block : BlockEntry} {plain : Bytes}, blocks[i]? = some block →
    (∀ j b, j < i → blocks[j]? = some b → r.Sound K b (n + j) engine) →
    r.openBlock K block (n + i) engine = .ok plain → ∀ st : World × List Use,
    Use.blockPlain plain.length ∈ (verifyBlocks K r p engine n blocks st).2.2
  | [], _, _, _, _, hi, _, _, _ => by cases hi
  | b :: blocks, n, 0, block, plain, hi, _, hopen, st => by
    cases hi
    refine Act.snd_of_wp (R := fun s : World × List Use => Use.blockPlain plain.length ∈ s.2) ?_
    unfold verifyBlocks
    rw [Act.wp_bind]
    exact Act.wp_mono (verifyBlock_logs hopen p st) (fun _ s h => verifyBlocks_mem _ p engine blocks (n + 1) s h)
      fun _ _ h => h
  | b :: blocks, n, i + 1, block, plain, hi, hbefore, hopen, st => by
    have hsound : r.Sound K b n engine := hbefore 0 b (Nat.succ_pos i) rfl
    have hok : (verifyBlock K r p engine n b st).1 = .ok () := by
      rw [(verifyBlock_erases p engine n b st.1 st.2).1, ArchiveReader.verifyBlock_ok.2 hsound]
      rfl
    unfold verifyBlocks
    rw [Act.bind_of_ok (Act.run_of_ok hok)]
    refine verifyBlocks_logs p (by simpa using hi) (fun j c hj hc => ?_) (by rwa [Nat.add_assoc, Nat.add_comm 1 i]) _
    rw [Nat.add_assoc, Nat.add_comm 1 j]
    exact hbefore (j + 1) c (Nat.succ_lt_succ hj) (by simpa using hc)

/-- A slice is the part of the block that lies in the range. -/
theorem blockSlice_kept (hR : Closed limits R) (hblock : r.header.blockSize ≤ limits.effMaxBlock) (a b : Nat)
    (engine : DecompressingEngine) (block : BlockEntry) (i start stop : Nat) :
    Kept R (blockSlice K r a b engine block i start stop : LogM σ Bytes) fun piece =>
      piece.length ≤ min b stop - start - (a - start) := by
  unfold blockSlice
  refine (readBlock_kept hR hblock block i engine).bind fun plain _ => (kept_any _).bind fun _ _ => ?_
  refine (kept_any _).bind fun _ _ => kept_checked fun piece hpiece => ?_
  cases hpiece
  rw [length_slice]
  exact Nat.min_le_left _ _

variable (limits) in
/-- Everything logged is within the limits, and `k` more bytes may be written before there are more than `total`. -/
def Left (total k : Nat) (log : List Use) : Prop := (∀ u ∈ log, u.Within limits) ∧ outputBytes log + k ≤ total

theorem outputBytes_append (log : List Use) (u : Use) : outputBytes (log ++ [u]) = outputBytes log + u.written := by
  simp [outputBytes]

theorem Left.record {total k j : Nat} {log : List Use} (h : Left limits total k log) {u : Use} (hu : u.Within limits)
    (hk : u.written + j ≤ k) : Left limits total j (log ++ [u]) := by
  refine ⟨fun v hv => ?_, ?_⟩
  · rcases List.mem_append.1 hv with hv | hv
    · exact h.1 v hv
    · rw [List.mem_singleton.1 hv]; exact hu
  · have := h.2
    rw [outputBytes_append]
    omega

theorem Left.mono {total k j : Nat} {log : List Use} (h : Left limits total k log) (hjk : j ≤ k) :
    Left limits total j log := ⟨h.1, Nat.le_trans (Nat.add_le_add_left hjk _) h.2⟩

theorem closed_left (total k : Nat) : Closed limits (Left limits total k) := fun _ _ h hu h0 =>
  h.record hu (by rw [h0, Nat.zero_add])

/-- **The loop over the blocks** writes at most what of the range lies behind the block it starts with. -/
theorem extractBlocks_left (hblock : r.header.blockSize ≤ limits.effMaxBlock) (total : Nat) (a b : Nat)
    (engine : DecompressingEngine) : ∀ (bs : List BlockEntry) (n s : Nat) (st : (World × BufWriter) × List Use),
    Left limits total (b - max a s) st.2 →
    Act.wp (extractBlocks K r a b engine ((buildBlockRanges.go s bs).zipIdx n))
      (fun _ st' => Left limits total 0 st'.2) (fun _ st' => Left limits total 0 st'.2) st
  | [], _, _, _, h => h.mono (Nat.zero_le _)
  | block₀ :: bs, n, s, st, h => by
    show Act.wp (extractBlocks K r a b engine (((s, s + block₀.sizePlain), n) ::
      (buildBlockRanges.go (s + block₀.sizePlain) bs).zipIdx (n + 1))) _ _ st
    rw [extractBlocks]
    split
    · exact h.mono (Nat.zero_le _)
    · rename_i block _
      split
      · exact h.mono (Nat.zero_le _)
      · rename_i hover
        rw [Act.wp_bind]
        refine Act.wp_mono (blockSlice_kept (closed_left total _) hblock a b engine block n s _ st h)
          (fun piece st₁ h₁ => ?_) fun _ _ h₁ => h₁.mono (Nat.zero_le _)
        obtain ⟨hpiece, h₁⟩ := h₁
        -- the slice and what is left for the other blocks fit into what was left
        have hsplit : piece.length + (b - max a (s + block₀.sizePlain)) ≤ b - max a s := by omega
        have h₂ : Left limits total (b - max a (s + block₀.sizePlain)) (st₁.2 ++ [.output piece.length]) :=
          h₁.record trivial hsplit
        rw [Act.wp_bind]
        show Act.wp _ _ _ (st₁.1, st₁.2 ++ [.output piece.length])
        rw [Act.wp_bind]
        refine Act.wp_mono (Act.keeps_onState _ _ h₂) (fun _ st₂ h₃ => ?_) fun _ _ h₃ => h₃.mono (Nat.zero_le _)
        exact extractBlocks_left hblock total a b engine bs (n + 1) _ st₂ h₃

/-- A step that keeps `R`, before steps that lead from `R` to `S`. -/
theorem wp_bind_kept {α β : Type} {S : List Use → Prop} {x : LogM σ α} {g : α → LogM σ β} {Q : α → Prop}
    (hRS : ∀ log, R log → S log) (hx : Kept R x Q) (hg : ∀ a, Q a → ∀ st, R st.2 →
      Act.wp (g a) (fun _ st' => S st'.2) (fun _ st' => S st'.2) st) (st : σ × List Use) (h : R st.2) :
    Act.wp (x >>= g) (fun _ st' => S st'.2) (fun _ st' => S st'.2) st := by
  rw [Act.wp_bind]
  exact Act.wp_mono (hx st h) (fun a st' h' => hg a h'.1 st' h'.2) fun _ _ h' => hRS _ h'

theorem writeRegular_left (hblock : r.header.blockSize ≤ limits.effMaxBlock) (f : FileEntry) (outDir : Path)
    (st : (World × BufWriter) × List Use) (h : Left limits f.size f.size st.2) :
    Act.wp (writeRegular K r f (f.streamOffset + f.size) outDir (buildBlockRanges r.index.block))
      (fun _ st' => Left limits f.size 0 st'.2) (fun _ st' => Left limits f.size 0 st'.2) st := by
  have hdone : ∀ log, Left limits f.size f.size log → Left limits f.size 0 log := fun _ h => h.mono (Nat.zero_le _)
  unfold writeRegular
  refine wp_bind_kept hdone (Act.Ensures.of_keeps (Act.keeps_lift _)) (fun time _ => ?_) st h
  refine wp_bind_kept hdone (kept_any _) fun engine _ st₁ h₁ => ?_
  rw [buildBlockRanges, drop_blockRanges, Act.wp_bind]
  exact Act.wp_mono (extractBlocks_left hblock f.size _ _ engine _ _ _ st₁ (h₁.mono (by omega)))
    (fun _ st₂ h₂ => (kept_onState _).keeps st₂ h₂) fun _ _ h₂ => h₂

theorem extractRegular_left (hblock : r.header.blockSize ≤ limits.effMaxBlock) (f : FileEntry) (outDir : Path)
    (st : World × List Use) (h : Left limits f.size f.size st.2) :
    Act.wp (extractRegular K r f (f.streamOffset + f.size) outDir (buildBlockRanges r.index.block))
      (fun _ st' => Left limits f.size 0 st'.2) (fun _ st' => Left limits f.size 0 st'.2) st := by
  have hdone : ∀ log, Left limits f.size f.size log → Left limits f.size 0 log := fun _ h => h.mono (Nat.zero_le _)
  have hclosed : Closed limits (Left limits f.size f.size) := closed_left _ _
  unfold extractRegular
  refine wp_bind_kept hdone (kept_onState _) (fun file _ => ?_) st h
  refine wp_bind_kept hdone (kept_record hclosed (.writeBuffer _) hblock rfl) fun _ _ => ?_
  refine wp_bind_kept hdone (Act.Ensures.of_keeps (Act.keeps_lift _)) fun _ _ st₁ h₁ => ?_
  unfold Act.zoomState
  rw [Act.wp_zoom]
  exact writeRegular_left hblock f outDir _ h₁

/-- **Extracting an entry** uses nothing above its limit and writes no more than the size of the entry. -/
theorem extractFile_left (hblock : r.header.blockSize ≤ limits.effMaxBlock) (f : FileEntry) (outDir : Path)
    (st : World × List Use) (h : Left limits (min f.size r.limits.effMaxFile) 0 st.2 ∧ Left limits f.size f.size st.2) :
    Act.wp (extractFile K r f outDir (buildBlockRanges r.index.block))
      (fun _ st' => Left limits (min f.size r.limits.effMaxFile) 0 st'.2)
      (fun _ st' => Left limits (min f.size r.limits.effMaxFile) 0 st'.2) st := by
  have hclosed : Closed limits (Left limits (min f.size r.limits.effMaxFile) 0) := closed_left _ _
  have hdone : ∀ log, Left limits (min f.size r.limits.effMaxFile) 0 log ∧ Left limits f.size f.size log →
    Left limits (min f.size r.limits.effMaxFile) 0 log := fun _ h => h.1
  unfold extractFile
  refine wp_bind_kept hdone (Q := fun stop => stop = f.streamOffset + f.size ∧ f.size ≤ r.limits.effMaxFile)
    (kept_checked fun stop hstop => ?_) (fun stop hstop => ?_) st h
  · obtain ⟨_, hsize, hrange⟩ := Except.bind_eq_ok.1 hstop
    refine ⟨?_, Nat.not_lt.1 (failIf_ok.1 hsize)⟩
    unfold ArchiveReader.fileRange at hrange
    split at hrange
    · exact (Except.ok.inj hrange).symm
    · cases hrange
  · obtain ⟨rfl, hsize⟩ := hstop
    refine wp_bind_kept hdone (kept_onState _) fun _ _ st₁ h₁ => ?_
    cases f.ftype with
    | dir => exact (kept_onState _).keeps st₁ h₁.1
    | symlink => exact (kept_onState _).keeps st₁ h₁.1
    | file =>
      rw [Nat.min_eq_left hsize]
      exact extractRegular_left hblock f outDir st₁ h₁.2

end Keeping

end Traced

section

variable {K : Crates} {limits : Limits}

/-- Logs with nothing above its limit. -/
theorem Traced.closed_within : Traced.Closed limits fun log => ∀ u ∈ log, u.Within limits := by
  intro log u hlog hu _ v hv
  rcases List.mem_append.1 hv with hv | hv
  · exact hlog v hv
  · rw [List.mem_singleton.1 hv]
    exact hu

/-- A reader that was made has accepted the block size. -/
theorem ArchiveReader.blockSize_of_new {f : Bytes} {p out : Path} {prompts : Prompts} {confirm : Bool}
    {r : ArchiveReader} (hnew : ArchiveReader.new K f p out limits prompts confirm = .ok r) :
    r.header.blockSize ≤ limits.effMaxBlock ∧ r.limits = limits := by
  obtain ⟨s, hret, rfl⟩ := ArchiveReader.new_ok.1 hnew
  obtain ⟨_, _, _, _, _, _, _, hblock, _⟩ := retrieveHeader_ok.1 (retrieve_ok.1 hret).1
  exact ⟨hblock, rfl⟩

/-- **Loading keeps the limits**, on every input. -/
theorem retrieve_within (f : Bytes) (p : Path) (prompts : Prompts) (confirm : Bool) (w : World) :
    ∀ u ∈ Act.logOf (Traced.retrieve K f p limits prompts confirm) w, u.Within limits :=
  Act.Keeps.logOf (R := fun log : List Use => ∀ u ∈ log, u.Within limits)
    (Traced.retrieve_kept Traced.closed_within f p prompts confirm).keeps (by simp) w

/-- **Extracting keeps the limits**, and writes no more than the size of the entry and the limit for files allow. -/
theorem extractFile_within {r : ArchiveReader} (hblock : r.header.blockSize ≤ limits.effMaxBlock)
    (hlimits : r.limits = limits) (e : FileEntry) (outDir : Path) (w : World) :
    let log := Act.logOf (Traced.extractFile K r e outDir (buildBlockRanges r.index.block)) w
    (∀ u ∈ log, u.Within limits) ∧ outputBytes log ≤ min e.size limits.effMaxFile := by
  subst hlimits
  have hstart : Traced.Left r.limits (min e.size r.limits.effMaxFile) 0 [] ∧ Traced.Left r.limits e.size e.size [] :=
    ⟨⟨by simp, Nat.zero_le _⟩, ⟨by simp, by simp [outputBytes]⟩⟩
  exact Act.snd_of_wp (R := fun st : World × List Use => Traced.Left r.limits (min e.size r.limits.effMaxFile) 0 st.2)
    (Traced.extractFile_left hblock e outDir (w, []) hstart)

/-- **Verifying keeps the limits** exactly when every block it comes to opens within the limit for blocks. -/
theorem verify_within_iff {r : ArchiveReader} (hblock : r.header.blockSize ≤ limits.effMaxBlock) (p : Path) :
    (∀ w, ∀ u ∈ Act.logOf (Traced.verify K r p) w, u.Within limits) ↔
      ∀ engine, DecompressingEngine.new K r.header.compression = .ok engine →
        Traced.OpenWithin K r limits.effMaxBlock engine 0 r.index.block := by
  constructor
  · intro h engine hengine i block plain hi hbefore hopen
    have hmem := Traced.verifyBlocks_logs p hi hbefore hopen (World.ofDirs [], [])
    have hlog : Act.logOf (Traced.verify K r p) (World.ofDirs []) =
        (Traced.verifyBlocks K r p engine 0 r.index.block (World.ofDirs [], [])).2.2 := by
      unfold Act.logOf Traced.verify
      rw [hengine]
      rfl
    exact h (World.ofDirs []) _ (hlog ▸ hmem)
  · intro hopen w
    exact Act.Keeps.logOf (R := fun log : List Use => ∀ u ∈ log, u.Within limits)
      (Traced.verify_kept Traced.closed_within hblock p hopen).keeps (by simp) w

end

/-- Whatever `retrieve`, `verify` and `extract_file` use of a file, when they end well and when they fail, is within its
limit, and an entry never writes more than its size and the limit for files allow. -/
structure LimitsEnforced (f : Bytes) (p out : Path) (limits : Limits) (prompts : Prompts) (confirm : Bool) : Prop where
  retrieve : ∀ w, ∀ u ∈ Act.logOf (Traced.retrieve K f p limits prompts confirm) w, u.Within limits
  verify : ∀ r, ArchiveReader.new K f p out limits prompts confirm = .ok r →
    ∀ w, ∀ u ∈ Act.logOf (Traced.verify K r p) w, u.Within limits
  extract : ∀ r, ArchiveReader.new K f p out limits prompts confirm = .ok r → ∀ e outDir w,
    let log := Act.logOf (Traced.extractFile K r e outDir (buildBlockRanges r.index.block)) w
    (∀ u ∈ log, u.Within limits) ∧ outputBytes log ≤ min e.size limits.effMaxFile

section

variable {K}

theorem enforced_iff_openWithin {f : Bytes} {p out : Path} {limits : Limits} {prompts : Prompts} {confirm : Bool} :
    LimitsEnforced K f p out limits prompts confirm ↔
      ∀ r engine, ArchiveReader.new K f p out limits prompts confirm = .ok r →
        DecompressingEngine.new K r.header.compression = .ok engine →
        Traced.OpenWithin K r limits.effMaxBlock engine 0 r.index.block := by
  constructor
  · intro h r engine hnew hengine
    exact (verify_within_iff (ArchiveReader.blockSize_of_new hnew).1 p).1 (h.verify r hnew) engine hengine
  · intro h
    refine ⟨retrieve_within f p prompts confirm, fun r hnew => ?_, fun r hnew e outDir w => ?_⟩
    · exact (verify_within_iff (ArchiveReader.blockSize_of_new hnew).1 p).2 fun engine hengine =>
        h r engine hnew hengine
    · obtain ⟨hblock, hlimits⟩ := ArchiveReader.blockSize_of_new hnew
      exact extractFile_within hblock hlimits e outDir w

variable (K) in
/-- What opening promises about lengths: a sealed message is 16 bytes longer, and zstd unpacks into the capacity it is
given. -/
structure Crates.Measured : Prop where
  zstd : ∀ {c n d}, K.zstdDecompress c n = some d → d.length ≤ n
  aes : ∀ {k n a c m}, K.aesDecrypt k n a c = some m → c.length = m.length + 16
  chacha : ∀ {k n a c m}, K.chachaDecrypt k n a c = some m → c.length = m.length + 16

theorem length_takeLimited {decoded : Bytes × Bool} {n : Nat} {d : Bytes} (h : takeLimited decoded n = .ok d) :
    d.length ≤ n := by
  unfold takeLimited at h
  split at h
  · cases h
  · dsimp only at h
    split at h
    · cases h
    · rename_i hlen
      cases h
      exact Nat.not_lt.1 hlen

/-- A codec unpacks at most the cap. -/
theorem length_decompress (hK : K.Measured) {engine : DecompressingEngine} (hcodec : engine.engine ≠ .none)
    {data d : Bytes} {n : Nat} (h : engine.decompress K data n = .ok d) : d.length ≤ n := by
  unfold DecompressingEngine.decompress at h
  cases hengine : engine.engine with
  | none => exact absurd hengine hcodec
  | zstd =>
    rw [hengine] at h
    exact hK.zstd (elim_ok h)
  | xz =>
    rw [hengine] at h
    exact length_takeLimited h
  | deflate =>
    rw [hengine] at h
    exact length_takeLimited h

theorem length_decryptBlock (hK : K.Measured) {encd : EncryptedData} {cipher : Cipher} {h : Header} {n : Nat}
    {stored d : Bytes} (hdec : decryptBlock K encd cipher h stored n = .ok d) :
    stored.length = d.length + cipher.overhead := by
  cases cipher with
  | none => cases hdec; rfl
  | aes k => exact hK.aes (elim_ok hdec)
  | chacha k => exact hK.chacha (elim_ok hdec)

/-- A block that no codec unpacks: it is not compressed, or the archive names no codec. -/
def ArchiveReader.Unpacked (r : ArchiveReader) (block : BlockEntry) : Prop :=
  block.isCompressed = false ∨ r.header.compression = .none

/-- What a block opens to is within the limit, or it was stored so. -/
theorem ArchiveReader.length_openBlock (hK : K.Measured) {r : ArchiveReader} {engine : DecompressingEngine}
    (hengine : DecompressingEngine.new K r.header.compression = .ok engine) {limit i : Nat}
    (hblock : r.header.blockSize ≤ limit) {block : BlockEntry} {plain : Bytes}
    (h : r.openBlock K block i engine = .ok plain) :
    plain.length ≤ limit ↔ (r.Unpacked block → block.sizeStored ≤ limit + r.cipher.overhead) := by
  obtain ⟨hplain, _, _, stored, hread, decrypted, hdec, hunpack⟩ := openBlock_ok.1 h
  have hstored : block.sizeStored = decrypted.length + r.cipher.overhead := by
    rw [← length_decryptBlock hK hdec, length_of_readAt hread]
  obtain rfl : ⟨r.header.compression⟩ = engine := by
    unfold DecompressingEngine.new at hengine
    split at hengine
    · cases hengine
    · exact Except.ok.inj hengine
  unfold unpackBlock at hunpack
  by_cases hunpacked : r.Unpacked block
  · have hsame : decrypted = plain := by
      split at hunpack
      · rename_i hcompressed
        rcases hunpacked with hnot | hnone
        · rw [hnot] at hcompressed; cases hcompressed
        · rw [hnone] at hunpack; exact Except.ok.inj hunpack
      · exact Except.ok.inj hunpack
    subst hsame
    rw [hstored]
    exact ⟨fun hle _ => by omega, fun hle => by have := hle hunpacked; omega⟩
  · refine ⟨fun _ h => absurd h hunpacked, fun _ => ?_⟩
    obtain ⟨hcompressed, hcodec⟩ := not_or.1 hunpacked
    rw [if_pos (by simpa using hcompressed)] at hunpack
    exact Nat.le_trans (length_decompress hK hcodec hunpack) (Nat.le_trans (Nat.not_lt.1 hplain) hblock)

end

/-- **When the limits are enforced before use**, for every file: exactly when `verify` comes to no block that opens, that
no codec unpacks and that was stored longer than the limit for blocks. The logs are those of the runs of the model. -/
theorem limits_enforced_iff (hK : K.Measured) (f : Bytes) (p out : Path) (limits : Limits) (prompts : Prompts)
    (confirm : Bool) :
    (Act.Erases (Traced.retrieve K f p limits prompts confirm) (liftResult (retrieve K f p limits prompts confirm)) ∧
      ∀ r, Act.Erases (Traced.verify K r p) (liftResult (r.verify K p)) ∧
        ∀ e outDir blocks, Act.Erases (Traced.extractFile K r e outDir blocks) (r.extractFile K e outDir blocks)) ∧
    (LimitsEnforced K f p out limits prompts confirm ↔
      ∀ r engine, ArchiveReader.new K f p out limits prompts confirm = .ok r →
        DecompressingEngine.new K r.header.compression = .ok engine →
        ∀ i block, r.index.block[i]? = some block → r.Unpacked block →
          (∀ j b, j < i → r.index.block[j]? = some b → r.Sound K b j engine) →
          (∃ plain, r.openBlock K block i engine = .ok plain) →
          block.sizeStored ≤ limits.effMaxBlock + r.cipher.overhead) := by
  refine ⟨⟨Traced.retrieve_erases f p limits prompts confirm, fun r =>
    ⟨Traced.verify_erases p, fun e outDir blocks => Traced.extractFile_erases e outDir blocks⟩⟩, ?_⟩
  rw [enforced_iff_openWithin]
  unfold Traced.OpenWithin
  simp only [Nat.zero_add]
  constructor
  · rintro h r engine hnew hengine i block hi hunpacked hbefore ⟨plain, hopen⟩
    exact (ArchiveReader.length_openBlock hK hengine (ArchiveReader.blockSize_of_new hnew).1 hopen).1
      (h r engine hnew hengine i block plain hi hbefore hopen) hunpacked
  · intro h r engine hnew hengine i block plain hi hbefore hopen
    exact (ArchiveReader.length_openBlock hK hengine (ArchiveReader.blockSize_of_new hnew).1 hopen).2 fun hunpacked =>
      h r engine hnew hengine i block hi hunpacked hbefore ⟨plain, hopen⟩

/-! ## A long block -/

/-- Three stored bytes whose entry says two. -/
def longIndex : Index where
  files := []
  block := [{
    offset := 4
    sizeStored := 3
    sizePlain := 2
    isCompressed := false
    nonce := Vector.replicate 12 0
    checksum := Vector.replicate 32 0 }]
  totalStreamSize := 2

/-- An empty header and an empty index, as the table encodes them, around the bytes. -/
def longArchive : Bytes := [0, 0, 0, 0, 7, 7, 7] ++ Footer.serialize ⟨7, 0, 0, false, Vector.replicate 12 0⟩

/-- Blocks of at most two bytes. -/
def twoBytes : Limits := { Limits.default with maxBlockSize := some 2 }

/-- Crates that store and that refuse what is too short or too long. -/
def Crates.measured (headers : List Header) (indexes : List Index) : Crates :=
  { Crates.tabled headers indexes with
    zstdDecompress := fun c n => if c.length ≤ n then some c else none
    aesDecrypt := fun _ _ _ c => if 16 ≤ c.length then some (c.take (c.length - 16)) else none
    chachaDecrypt := fun _ _ _ c => if 16 ≤ c.length then some (c.take (c.length - 16)) else none }

theorem Crates.measured_measured (headers : List Header) (indexes : List Index) :
    (measured headers indexes).Measured := by
  have hcut : ∀ {c m : Bytes}, (if 16 ≤ c.length then some (c.take (c.length - 16)) else none) = some m →
      c.length = m.length + 16 := by
    intro c m h
    split at h
    · cases h
      rw [List.length_take]
      omega
    · cases h
  refine ⟨fun {c n d} h => ?_, hcut, hcut⟩
  change (if c.length ≤ n then some c else none) = some d at h
  split at h
  · rename_i hle
    cases h
    exact hle
  · cases h

/-- The archive of one stored byte is verified within the limits. -/
theorem limits_enforced_declared :
    LimitsEnforced (Crates.measured [Header.stored 512] [declaredIndex 1]) declared [] [] Limits.default ⟨none, none⟩
      false := by
  refine ((limits_enforced_iff _ (Crates.measured_measured _ _) declared [] [] _ ⟨none, none⟩ false).2).2 ?_
  intro r engine hnew _ i block hi _ _ _
  have hr : ArchiveReader.new (Crates.measured [Header.stored 512] [declaredIndex 1]) declared [] [] Limits.default
    ⟨none, none⟩ false = .ok (declaredReader 1) := by decide +kernel
  obtain rfl : r = declaredReader 1 := Except.ok.inj (hnew.symm.trans hr)
  match i, hi with
  | 0, hi =>
    cases hi
    decide +kernel

/-- **`verify` hashes a block above the limit.** -/
theorem verify_hashes_long_block :
    ¬ LimitsEnforced (Crates.measured [Header.stored 2] [longIndex]) longArchive [] [] twoBytes ⟨none, none⟩ false := by
  intro h
  let r : ArchiveReader := ⟨[], [], longArchive, longIndex, Header.stored 2, .none, twoBytes⟩
  have huse : Use.blockPlain 3 ∈ Act.logOf (Traced.verify (Crates.measured [Header.stored 2] [longIndex]) r [])
      (World.ofDirs []) := by decide +kernel
  have hwithin : 3 ≤ 2 := h.verify r (by decide +kernel) _ _ huse
  omega

end Cryo
