import Cryo.Reader

/-!
# Verifying and reading blocks

Both `readBlock` and the body of `verify` open a block (`openBlock`): they check its sizes, read it, decrypt it and
unpack it. Then `readBlock` checks the length, and only its callers the checksum; `verify` checks the checksum, but
never the length.

* `readBlock_ok`, `verifyBlock_ok`: what each accepts, in terms of opening.
* `verify_agrees_iff`: when the two agree on an archive.
* `verify_accepts_wrong_length`: an archive on which they do not.
-/

namespace Cryo

open Posix Bytes

variable (K : Crates)

namespace ArchiveReader

variable (r : ArchiveReader)

/-- Reading a block up to the checks of what was read. -/
def openBlock (block : BlockEntry) (blockNum : Nat) (engine : DecompressingEngine) : Result Bytes := do
  failIf (block.sizePlain > r.header.blockSize) (.blockTooLarge block.sizePlain r.header.blockSize)
  failIf (block.sizeStored > r.header.maxStored) (.blockTooLarge block.sizeStored r.header.maxStored)
  ioFailed r.path (seekStart block.offset)
  let stored ← ioFailed r.path (readAt r.reader block.offset block.sizeStored)
  let decrypted ← openStored K (.block block.nonce) r.cipher r.header stored blockNum
  unpackBlock K engine block decrypted

/-- A block opens to bytes with its recorded checksum. -/
def Sound (block : BlockEntry) (i : Nat) (engine : DecompressingEngine) : Prop :=
  ∃ plain, r.openBlock K block i engine = .ok plain ∧ K.blake3 plain = block.checksum

variable {K r} {block : BlockEntry} {i : Nat} {engine : DecompressingEngine} {plain : Bytes} {p : Path}

theorem readBlock_eq : r.readBlock K block i engine = (do
    let plain ← r.openBlock K block i engine
    failIf (plain.length ≠ block.sizePlain) .decompressionError
    .ok plain) := by
  unfold readBlock openBlock
  simp only [bind_assoc]

/-- Reading accepts what opens to the recorded length. -/
theorem readBlock_ok : r.readBlock K block i engine = .ok plain ↔
    r.openBlock K block i engine = .ok plain ∧ plain.length = block.sizePlain := by
  rw [readBlock_eq, Except.bind_eq_ok]
  constructor
  · rintro ⟨q, hq, h⟩
    obtain ⟨_, hlen, h⟩ := Except.bind_eq_ok.1 h
    cases h
    exact ⟨hq, not_not.1 (failIf_ok.1 hlen)⟩
  · rintro ⟨hq, hlen⟩
    exact ⟨plain, hq, by rw [failIf_neg (not_not.2 hlen)]; rfl⟩

/-- What opening a block takes. -/
theorem openBlock_ok : r.openBlock K block i engine = .ok plain ↔
    ¬ block.sizePlain > r.header.blockSize ∧ ¬ block.sizeStored > r.header.maxStored ∧
      seekStart block.offset = .ok () ∧ ∃ stored, readAt r.reader block.offset block.sizeStored = .ok stored ∧
        ∃ decrypted, decryptBlock K (.block block.nonce) r.cipher r.header stored i = .ok decrypted ∧
          unpackBlock K engine block decrypted = .ok plain := by
  unfold openBlock
  simp only [openStored_eq, Except.bind_eq_ok, failIf_ok, ioFailed_ok]
  constructor
  · rintro ⟨_, hplain, _, hstored, _, hseek, stored, hread, decrypted, hdec, hunpack⟩
    exact ⟨hplain, hstored, hseek, stored, hread, decrypted, hdec, hunpack⟩
  · rintro ⟨hplain, hstored, hseek, stored, hread, decrypted, hdec, hunpack⟩
    exact ⟨(), hplain, (), hstored, (), hseek, stored, hread, decrypted, hdec, hunpack⟩

/-- Verifying accepts what opens to the recorded checksum. -/
theorem verifyBlock_ok : r.verifyBlock K p engine i block = .ok () ↔ r.Sound K block i engine := by
  unfold verifyBlock Sound
  simp only [openBlock_ok, Except.bind_eq_ok, failIf_ok, ioFailed_ok, not_not]
  constructor
  · rintro ⟨_, hplain, _, hstored, _, hseek, stored, hread, decrypted, hdec, plain, hunpack, hsum⟩
    exact ⟨plain, ⟨hplain, hstored, hseek, stored, hread, decrypted, hdec, hunpack⟩, hsum⟩
  · rintro ⟨plain, ⟨hplain, hstored, hseek, stored, hread, decrypted, hdec, hunpack⟩, hsum⟩
    exact ⟨(), hplain, (), hstored, (), hseek, stored, hread, decrypted, hdec, plain, hunpack, hsum⟩

/-- The loop accepts when every block is accepted. -/
theorem verifyBlocks_ok : ∀ {blocks : List BlockEntry} {n : Nat}, r.verifyBlocks K p engine n blocks = .ok () ↔
    ∀ i block, blocks[i]? = some block → r.Sound K block (n + i) engine
  | [], n => by simp [verifyBlocks]
  | b :: blocks, n => by
    rw [verifyBlocks, Except.bind_eq_ok]
    constructor
    · rintro ⟨_, hb, hrest⟩ i block hi
      cases i with
      | zero =>
        cases hi
        exact verifyBlock_ok.1 hb
      | succ i =>
        have := verifyBlocks_ok.1 hrest i block (by simpa using hi)
        rwa [Nat.add_assoc, Nat.add_comm 1 i] at this
    · intro h
      refine ⟨(), verifyBlock_ok.2 (h 0 b rfl), verifyBlocks_ok.2 fun i block hi => ?_⟩
      have := h (i + 1) block (by simpa using hi)
      rwa [Nat.add_comm i 1, ← Nat.add_assoc] at this

/-- **What `verify` accepts.** -/
theorem verify_ok (hengine : DecompressingEngine.new K r.header.compression = .ok engine) :
    r.verify K p = .ok () ↔ ∀ i block, r.index.block[i]? = some block → r.Sound K block i engine := by
  unfold verify
  rw [hengine, Except.ok_bind, verifyBlocks_ok]
  simp only [Nat.zero_add]

/-- **When `verify` and `readBlock` agree**: not when all blocks open with their checksums and one of them has another
length than its entry says. -/
theorem verify_agrees_iff (hengine : DecompressingEngine.new K r.header.compression = .ok engine) (p : Path) :
    (r.verify K p = .ok () ↔ ∀ i block, r.index.block[i]? = some block →
      ∃ plain, r.readBlock K block i engine = .ok plain ∧ K.blake3 plain = block.checksum) ↔
    ((∀ i block, r.index.block[i]? = some block → r.Sound K block i engine) →
      ∀ i block plain, r.index.block[i]? = some block → r.openBlock K block i engine = .ok plain →
        plain.length = block.sizePlain) := by
  rw [verify_ok hengine]
  constructor
  · intro h hsound i block plain hi hopen
    obtain ⟨plain', hread, _⟩ := h.1 hsound i block hi
    obtain ⟨hopen', hlen⟩ := readBlock_ok.1 hread
    rw [hopen] at hopen'
    rwa [Except.ok.inj hopen']
  · intro h
    constructor
    · intro hsound i block hi
      obtain ⟨plain, hopen, hsum⟩ := hsound i block hi
      exact ⟨plain, readBlock_ok.2 ⟨hopen, h hsound i block plain hi hopen⟩, hsum⟩
    · intro hread i block hi
      obtain ⟨plain, hplain, hsum⟩ := hread i block hi
      exact ⟨plain, (readBlock_ok.1 hplain).1, hsum⟩

end ArchiveReader

/-! ## A wrong length -/

/-- One stored byte whose entry says `n`. -/
def declaredIndex (n : Nat) : Index where
  files := []
  block := [{
    offset := 4
    sizeStored := 1
    sizePlain := n
    isCompressed := false
    nonce := Vector.replicate 12 0
    checksum := Vector.ofFn fun i => [7].getD i 0 }]
  totalStreamSize := n

/-- An empty header and an empty index, as the table encodes them, around the byte. -/
def declared : Bytes := [0, 0, 0, 0, 7] ++ Footer.serialize ⟨5, 0, 0, false, Vector.replicate 12 0⟩

def declaredReader (n : Nat) : ArchiveReader :=
  ⟨[], [], declared, declaredIndex n, Header.stored 512, .none, Limits.default⟩

/-- With the right length the two agree. -/
theorem verify_agrees_iff_one :
    let K := Crates.tabled [Header.stored 512] [declaredIndex 1]
    let r := declaredReader 1
    r.verify K [] = .ok () ↔ ∀ i block, r.index.block[i]? = some block →
      ∃ plain, r.readBlock K block i ⟨.none⟩ = .ok plain ∧ K.blake3 plain = block.checksum := by
  intro K r
  refine (ArchiveReader.verify_agrees_iff (K := K) (r := r) rfl []).2 fun _ i block plain hi hopen => ?_
  match i, hi with
  | 0, hi =>
    cases hi
    have : plain = [7] := Except.ok.inj (hopen.symm.trans (by decide +kernel))
    rw [this]; rfl

/-- **`verify` accepts a block of the wrong length**, which `readBlock` refuses. -/
theorem verify_accepts_wrong_length :
    let K := Crates.tabled [Header.stored 512] [declaredIndex 5]
    ∃ r, ArchiveReader.new K declared [] [] Limits.default ⟨none, none⟩ false = .ok r ∧
      DecompressingEngine.new K r.header.compression = .ok ⟨.none⟩ ∧
      ¬(r.verify K [] = .ok () ↔ ∀ i block, r.index.block[i]? = some block →
        ∃ plain, r.readBlock K block i ⟨.none⟩ = .ok plain ∧ K.blake3 plain = block.checksum) := by
  refine ⟨declaredReader 5, by decide +kernel, rfl, fun h => ?_⟩
  obtain ⟨plain, hread, _⟩ := h.1 (by decide +kernel) 0 _ rfl
  obtain ⟨hopen, hlen⟩ := ArchiveReader.readBlock_ok.1 hread
  have : plain = [7] := Except.ok.inj (hopen.symm.trans (by decide +kernel))
  simp [this] at hlen

end Cryo
