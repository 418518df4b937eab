import Cryo.Lib.Bytes
import Cryo.Lib.FileSystem
import Mathlib.Data.List.GetD

/-!
# Errors, limits and the records of an archive

The error type (`errors.rs`), the constants and limits (`consts.rs`), and the records an archive is made of
(`format.rs`): the header, the index with its file and block entries, and the 29-byte footer. Numbers of fixed width
are natural numbers; `u32` is the narrowing cast. The footer's bytes read back as the footer
(`Footer.deserialize_serialize`).
-/

namespace Cryo

open Posix Bytes

/-! ## Errors -/

inductive CryoErrors where
  | emptyArchiveName
  | compressionError
  | decompressionError
  | invalidCompressionLevel (algo : String) (min max : Int)
  | invalidPath
  | serializationFailed
  | deserializationFailed
  | possibleZipBomb
  | recursiveLookupFailed (p : Path) (source : Errno)
  | readFailed (p : Path) (source : Errno)
  | unsafePath (p : Path)
  | writeError
  | cryptographicError (s : String)
  | initializationError (s : String)
  | fileTooLarge (size limit : Nat)
  | blockTooLarge (size limit : Nat)
  | mCostTooLarge (size limit : Nat)
  | indexTooLarge (size limit : Nat)
  | headerTooLarge (size limit : Nat)
  | checksumMismatch
  | invalidPattern
  | threadError
  | notSupported
  | invalidMagic
  | dirNotRecursive
  deriving DecidableEq

/-- How a call ends early: it returns an error, or it panics. -/
inductive Halt where
  | err (e : CryoErrors)
  | panic (message : String)
  deriving DecidableEq

abbrev Result (α : Type) := Except CryoErrors α

/-! ## Constants -/

def MAGIC : Vector UInt8 8 := #v[0x43, 0x52, 0x59, 0x4F, 0x1A, 0x0A, 0x0D, 0x00]
def VERSION : Nat := 3
def MAX_FILE_SIZE : Nat := 10 * 1024 * 1024 * 1024
def MAX_BLOCK_SIZE : Nat := 256 * 1024 * 1024
def MAX_M_COST : Nat := 1024 * 1024
def MAX_INDEX_SIZE : Nat := 100 * 1024 * 1024
def MAX_HEADER_SIZE : Nat := 64 * 1024
def STORED_BLOCK_OVERHEAD : Nat := 1024

/-- `as u32`. -/
def u32 (n : Nat) : Nat := n % 2 ^ 32

theorem u32_of_lt {n : Nat} (h : n < 2 ^ 32) : u32 n = n := Nat.mod_eq_of_lt h

theorem u32_lt (n : Nat) : u32 n < 2 ^ 32 := Nat.mod_lt _ (by decide)

theorem u32_eq_iff {n : Nat} : u32 n = n ↔ n < 2 ^ 32 := ⟨fun h => h ▸ u32_lt n, u32_of_lt⟩

theorem u32_le (n : Nat) : u32 n ≤ n := Nat.mod_le _ _

structure Limits where
  maxBlockSize : Option Nat
  maxFileSize : Option Nat
  maxMCost : Option Nat
  maxIndexSize : Option Nat
  maxHeaderSize : Option Nat
  deriving DecidableEq

namespace Limits

def default : Limits where
  maxFileSize := some MAX_FILE_SIZE
  maxBlockSize := some MAX_BLOCK_SIZE
  maxMCost := some MAX_M_COST
  maxIndexSize := some MAX_INDEX_SIZE
  maxHeaderSize := some MAX_HEADER_SIZE

variable (l : Limits)

/-! The limits in force: an absent one is the default. -/

def effMaxBlock : Nat := l.maxBlockSize.getD MAX_BLOCK_SIZE
def effMaxFile : Nat := l.maxFileSize.getD MAX_FILE_SIZE
def effMaxM : Nat := l.maxMCost.getD MAX_M_COST
def effMaxIndex : Nat := l.maxIndexSize.getD MAX_INDEX_SIZE
def effMaxHeader : Nat := l.maxHeaderSize.getD MAX_HEADER_SIZE

end Limits

/-! ## Records -/

abbrev Nonce := Vector UInt8 12
abbrev Digest := Vector UInt8 32
abbrev Key := Vector UInt8 32
abbrev ArchiveId := Vector UInt8 16

inductive EncryptedData where
  | index (nonce : Nonce)
  | block (nonce : Nonce)

inductive Compressor where
  | zstd
  | xz
  | deflate
  | none
  deriving DecidableEq

inductive EncryptionType where
  | aes
  | chaCha
  | none
  deriving DecidableEq

inductive FileType where
  | file
  | dir
  | symlink
  deriving DecidableEq

inductive ParamsProfile where
  | fast
  | balanced
  | paranoid
  deriving DecidableEq

def ParamsProfile.params : ParamsProfile → Nat × Nat × Nat
  | .fast => (19456, 2, 1)
  | .balanced => (65536, 3, 4)
  | .paranoid => (262144, 4, 4)

structure BlockEntry where
  offset : Nat
  sizeStored : Nat
  sizePlain : Nat
  isCompressed : Bool
  nonce : Nonce
  checksum : Digest
  deriving DecidableEq

structure FileEntry where
  path : Path
  ftype : FileType
  streamOffset : Nat
  size : Nat
  timestamp : Nat
  permissions : Nat
  symlinkTarget : Option Path
  deriving DecidableEq

structure Index where
  files : List FileEntry
  block : List BlockEntry
  totalStreamSize : Nat
  deriving DecidableEq

structure Header where
  magic : Vector UInt8 8
  version : Nat
  compression : Compressor
  compressionLevel : Int
  encryption : EncryptionType
  argonSalt : Vector UInt8 32
  argonParams : Nat × Nat × Nat
  archiveId : ArchiveId
  blockSize : Nat
  deriving DecidableEq

/-- `Header::new` on the random salt and archive id it draws. -/
def Header.new (salt : Vector UInt8 32) (archiveId : ArchiveId) (profile : ParamsProfile) (compression : Compressor)
    (compressionLevel : Int) (bs : Nat) (encryption : EncryptionType) : Header where
  magic := MAGIC
  version := VERSION
  encryption := encryption
  compression := compression
  compressionLevel := compressionLevel
  argonSalt := salt
  argonParams := profile.params
  archiveId := archiveId
  blockSize := bs

/-- The header of an archive that neither compresses nor encrypts, with a zero salt and id. -/
def Header.stored (blockSize : Nat) : Header :=
  .new (Vector.replicate 32 0) (Vector.replicate 16 0) .balanced .none 0 blockSize .none

/-! ## The footer -/

structure Footer where
  indexOffset : Nat
  indexSizeStored : Nat
  indexSizePlain : Nat
  indexCompressed : Bool
  indexNonce : Nonce
  deriving DecidableEq

namespace Footer

/-- The 29 bytes at the end of an archive. -/
def serialize (f : Footer) : Bytes :=
  leBytes 8 f.indexOffset ++ leBytes 4 f.indexSizeStored ++ leBytes 4 f.indexSizePlain ++
    [if f.indexCompressed then 1 else 0] ++ f.indexNonce.toList

def deserialize (raw : Bytes) : Result Footer := .ok {
  indexOffset := leVal (slice 0 8 raw)
  indexSizeStored := leVal (slice 8 4 raw)
  indexSizePlain := leVal (slice 12 4 raw)
  indexCompressed := raw.getD 16 0 ≠ 0
  indexNonce := Vector.ofFn fun i => raw.getD (17 + i) 0 }

@[simp] theorem length_serialize (f : Footer) : f.serialize.length = 29 := by simp [serialize]

/-- The fields fit their widths. -/
structure Fits (f : Footer) : Prop where
  indexOffset : f.indexOffset < 2 ^ 64
  indexSizeStored : f.indexSizeStored < 2 ^ 32
  indexSizePlain : f.indexSizePlain < 2 ^ 32

/-- **The footer round-trips** through its bytes. -/
theorem deserialize_serialize {f : Footer} (h : f.Fits) : deserialize f.serialize = .ok f := by
  have hoff : slice 0 8 f.serialize = leBytes 8 f.indexOffset := by
    unfold serialize slice
    simp only [List.drop_zero, List.append_assoc]
    rw [List.take_left' (by simp)]
  have hstored : slice 8 4 f.serialize = leBytes 4 f.indexSizeStored := by
    rw [serialize, List.append_assoc, List.append_assoc]
    exact slice_mid_of_eq (by simp) (by simp)
  have hplain : slice 12 4 f.serialize = leBytes 4 f.indexSizePlain := by
    rw [serialize, List.append_assoc]
    exact slice_mid_of_eq (by simp) (by simp)
  have hflag : f.serialize.getD 16 0 = if f.indexCompressed then 1 else 0 := by
    rw [serialize, List.getD_append _ _ _ _ (by simp), List.getD_append_right _ _ _ _ (by simp)]
    simp
  have hnonce : ∀ i : Fin 12, f.serialize.getD (17 + i) 0 = f.indexNonce[i] := by
    intro i
    rw [serialize, List.getD_append_right _ _ _ _ (by simp)]
    simp
  unfold deserialize
  rw [hoff, hstored, hplain, leVal_leBytes h.indexOffset, leVal_leBytes h.indexSizeStored,
    leVal_leBytes h.indexSizePlain, hflag]
  congr 1
  cases f with
  | mk off stored plain compressed nonce =>
    congr 1
    · cases compressed <;> simp
    · refine Vector.ext fun i hi => ?_
      rw [Vector.getElem_ofFn]
      exact hnonce ⟨i, hi⟩

/-- An offset is written with 64 bits. -/
theorem serialize_mod (f : Footer) : { f with indexOffset := f.indexOffset % 2 ^ 64 }.serialize = f.serialize := by
  unfold serialize
  rw [show (2 : Nat) ^ 64 = 256 ^ 8 by decide, leBytes_mod]

end Footer

end Cryo
