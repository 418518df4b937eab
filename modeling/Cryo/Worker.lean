import Cryo.Codec
import Cryo.Reading

/-!
# The workers

`process_block` and `spawn_workers` of `compress.rs`: a raw block is hashed, compressed, kept raw when that is not
smaller, and sealed under its number. The nonce a block draws is a parameter.

A processed block `Seals` its raw block: under the same number and archive id it opens and decompresses to the raw
bytes, and it is at most the tag longer than they are (`processBlock_seals`).
-/

namespace Cryo

structure ProcessedBlock where
  id : Nat
  processedData : Bytes
  sizePlain : Nat
  isCompressed : Bool
  nonce : Nonce
  checksum : Digest
  deriving DecidableEq

variable {K : Crates}

/-- Compressed bytes are used when they are fewer. -/
def smaller (compressed raw : Bytes) : Bytes × Bool :=
  if compressed.length < raw.length then (compressed, true) else (raw, false)

def processBlock (cipher : Cipher) (archiveId : ArchiveId) (compressor : CompressingEngine K) (nonce : Nonce)
    (block : RawBlock) : Result ProcessedBlock := do
  let compressed ← compressor.compress block.rawData
  let kept := smaller compressed block.rawData
  let encrypted ← encryptBlock K block.id kept.1 (.block nonce) archiveId cipher
  .ok {
    id := block.id
    processedData := encrypted
    sizePlain := u32 block.rawData.length
    isCompressed := kept.2
    nonce := nonce
    checksum := K.blake3 block.rawData }

section
variable (K)

/-- The task of the pool on one raw block. -/
def workerTask (cipher : Cipher) (archiveId : ArchiveId) (compression : Compressor) (level : Int) (nonce : Nonce)
    (rawBlock : RawBlock) : Result ProcessedBlock := do
  let engine : CompressingEngine K ← CompressingEngine.new compression level
  processBlock cipher archiveId engine nonce rawBlock

/-- The pool's results in the order of the raw blocks, or the error of a block that failed. -/
def spawnWorkers (rawBlocks : List RawBlock) (nonces : Nat → Nonce) (cipher : Cipher) (archiveId : ArchiveId)
    (compression : Compressor) (level : Int) : Result (List ProcessedBlock) :=
  rawBlocks.mapM fun rawBlock => workerTask K cipher archiveId compression level (nonces rawBlock.id) rawBlock

end

/-! ## What a processed block is -/

/-- The length of what is sealed for raw bytes. -/
def CompressingEngine.keptLength (e : CompressingEngine K) (raw : Bytes) : Nat :=
  match e.compress raw with
  | .ok compressed => min compressed.length raw.length
  | .error _ => raw.length

variable (K) in
/-- `b` is a sealed form of `raw`: it opens to bytes that decompress to `raw`. -/
structure Seals (compression : Compressor) (cipher : Cipher) (archiveId : ArchiveId) (raw : RawBlock)
    (b : ProcessedBlock) : Prop where
  id : b.id = raw.id
  sizePlain : b.sizePlain = u32 raw.rawData.length
  checksum : b.checksum = K.blake3 raw.rawData
  length : b.processedData.length ≤ raw.rawData.length + cipher.overhead
  opens : ∀ h : Header, h.archiveId = archiveId → ∃ kept,
    decryptBlock K (.block b.nonce) cipher h b.processedData raw.id = .ok kept ∧
    b.processedData.length = kept.length + cipher.overhead ∧
    if b.isCompressed then
      (∀ n, raw.rawData.length ≤ n → DecompressingEngine.decompress K ⟨compression⟩ kept n = .ok raw.rawData)
    else kept = raw.rawData

theorem smaller_length (c r : Bytes) : (smaller c r).1.length = min c.length r.length := by
  unfold smaller
  split <;> simp <;> omega

variable {cipher : Cipher} {archiveId : ArchiveId} {engine : CompressingEngine K} {nonce : Nonce} {raw : RawBlock}
  {b : ProcessedBlock}

/-- The stored length of a processed block. -/
theorem length_processBlock (hK : K.Lawful) (h : processBlock cipher archiveId engine nonce raw = .ok b) :
    b.processedData.length = engine.keptLength raw.rawData + cipher.overhead := by
  obtain ⟨c, hc, h⟩ := Except.bind_eq_ok.1 h
  obtain ⟨encrypted, he, h⟩ := Except.bind_eq_ok.1 h
  cases h
  simp only [length_encryptBlock hK he, smaller_length, CompressingEngine.keptLength, hc]

/-- **A processed block seals its raw block.** -/
theorem processBlock_seals (hK : K.Lawful) (h : processBlock cipher archiveId engine nonce raw = .ok b) :
    Seals K engine.engine cipher archiveId raw b := by
  obtain ⟨c, hc, h⟩ := Except.bind_eq_ok.1 h
  obtain ⟨encrypted, he, h⟩ := Except.bind_eq_ok.1 h
  cases h
  have hlen := length_encryptBlock hK he
  refine ⟨rfl, rfl, rfl, ?_, ?_⟩
  · simp only [hlen, smaller_length]; omega
  · rintro h rfl
    refine ⟨(smaller c raw.rawData).1, decryptBlock_encryptBlock hK he, hlen, ?_⟩
    unfold smaller
    by_cases hs : c.length < raw.rawData.length
    · rw [if_pos hs]
      exact fun n hn => decompress_compress hK hc hn
    · rw [if_neg hs]; simp

/-- A new engine has the engine and the level asked for. -/
theorem CompressingEngine.new_ok {compression : Compressor} {level : Int} {e : CompressingEngine K}
    (h : CompressingEngine.new compression level = .ok e) : e.engine = compression ∧ e.level = level := by
  unfold CompressingEngine.new at h
  split at h
  · split at h
    · cases h
    · cases h; exact ⟨rfl, rfl⟩
  · cases h

/-- Where blocks can be compressed they can be decompressed. -/
theorem DecompressingEngine.new_of_compressing {compression : Compressor} {level : Int} {e : CompressingEngine K}
    (h : CompressingEngine.new compression level = .ok e) :
    DecompressingEngine.new K compression = .ok ⟨compression⟩ := by
  unfold CompressingEngine.new at h
  unfold DecompressingEngine.new
  split at h
  · split at h
    · cases h
    · rename_i hz; rw [if_neg hz]
  · cases h

/-- The pool processes every raw block. -/
theorem spawnWorkers_ok {raws : List RawBlock} {nonces : Nat → Nonce} {compression : Compressor} {level : Int}
    {bs : List ProcessedBlock} (h : spawnWorkers K raws nonces cipher archiveId compression level = .ok bs) :
    List.Forall₂ (fun raw b => ∃ engine : CompressingEngine K, CompressingEngine.new compression level = .ok engine ∧
      processBlock cipher archiveId engine (nonces raw.id) raw = .ok b) raws bs :=
  (Except.mapM_eq_ok.1 h).imp fun _ _ hb => Except.bind_eq_ok.1 hb

theorem spawnWorkers_seals (hK : K.Lawful) {raws : List RawBlock} {nonces : Nat → Nonce} {compression : Compressor}
    {level : Int} {bs : List ProcessedBlock}
    (h : spawnWorkers K raws nonces cipher archiveId compression level = .ok bs) :
    List.Forall₂ (Seals K compression cipher archiveId) raws bs := by
  refine (spawnWorkers_ok h).imp fun raw b hb => ?_
  obtain ⟨engine, he, hb⟩ := hb
  rw [← (CompressingEngine.new_ok he).1]
  exact processBlock_seals hK hb

/-- A block keeps its number and carries the nonce it was sealed with. -/
theorem workerTask_ok {compression : Compressor} {level : Int}
    (h : workerTask K cipher archiveId compression level nonce raw = .ok b) : b.id = raw.id ∧ b.nonce = nonce := by
  obtain ⟨engine, _, h⟩ := Except.bind_eq_ok.1 h
  obtain ⟨_, _, h⟩ := Except.bind_eq_ok.1 h
  obtain ⟨_, _, h⟩ := Except.bind_eq_ok.1 h
  cases h
  exact ⟨rfl, rfl⟩

theorem ids_eq : ∀ {raws : List RawBlock} {bs : List ProcessedBlock},
    List.Forall₂ (fun raw b => ProcessedBlock.id b = RawBlock.id raw) raws bs →
    bs.map ProcessedBlock.id = raws.map RawBlock.id
  | _, _, .nil => rfl
  | _, _, .cons h hs => by rw [List.map_cons, List.map_cons, h, ids_eq hs]

/-- The pool keeps the numbers. -/
theorem spawnWorkers_ids {raws : List RawBlock} {nonces : Nat → Nonce} {compression : Compressor} {level : Int}
    {processed : List ProcessedBlock}
    (h : spawnWorkers K raws nonces cipher archiveId compression level = .ok processed) :
    processed.map ProcessedBlock.id = raws.map RawBlock.id :=
  ids_eq ((Except.mapM_eq_ok.1 h).imp fun _ _ hb => (workerTask_ok hb).1)

end Cryo
