import Cryo.Writer

/-!
# Opening an archive

`FileStructs::retrieve` of `loader.rs` on the bytes of a file: the header with its length in front, the footer in the
last 29 bytes, and the index it points to, each checked against the limits before it is read.

An `Image` is an archive taken apart: its records with the bytes that encode them, and the data region between the
header and the index. Whatever the data region holds, the records read back from the image's bytes (`Image.retrieve`).
-/

namespace Cryo

open Posix Bytes

/-- `read_exact` of `len` bytes at `off`. -/
def readAt (f : Bytes) (off len : Nat) : Except Errno Bytes :=
  if len = 0 ∨ off + len ≤ f.length then .ok (slice off len f) else .error .unexpectedEof

theorem length_of_readAt {f b : Bytes} {off len : Nat} (h : readAt f off len = .ok b) : b.length = len := by
  unfold readAt at h
  split at h
  · rename_i hread
    cases h
    rw [length_slice]
    omega
  · cases h

/-- `seek` from the start; offsets are signed in the system call. -/
def seekStart (off : Nat) : Except Errno Unit := if off < 2 ^ 63 then .ok () else .error .inval

/-- `seek` to 29 bytes before the end. -/
def seekFooter (f : Bytes) : Except Errno Nat := if 29 ≤ f.length then .ok (f.length - 29) else .error .inval

/-- An early return with an error. -/
def failIf (bad : Prop) [Decidable bad] (e : CryoErrors) : Result Unit := if bad then .error e else .ok ()

theorem failIf_ok {bad : Prop} [Decidable bad] {e : CryoErrors} {u : Unit} : failIf bad e = .ok u ↔ ¬ bad := by
  unfold failIf; split <;> simp_all

@[simp] theorem failIf_neg {bad : Prop} [Decidable bad] {e : CryoErrors} (h : ¬ bad) : failIf bad e = .ok () :=
  failIf_ok.2 h

/-- `map_err` to a read failure of the archive. -/
def ioFailed {α : Type} (p : Path) (r : Except Errno α) : Result α := r.mapError fun e => .readFailed p e

structure FileStructs where
  header : Header
  index : Index
  cipher : Cipher
  footer : Footer

def verifyMetadata (h : Header) : Result Unit := do
  failIf (h.version ≠ VERSION) .notSupported
  failIf (h.magic ≠ MAGIC) .invalidMagic

variable (K : Crates)

/-- The header, after its length. -/
def retrieveHeader (f : Bytes) (p : Path) (limits : Limits) : Result Header := do
  let headerSizeBytes ← ioFailed p (readAt f 0 4)
  let headerSize := leVal headerSizeBytes
  failIf (headerSize > limits.effMaxHeader) (.headerTooLarge headerSize limits.effMaxHeader)
  let headerBytes ← ioFailed p (readAt f 4 headerSize)
  let header ← (K.headerFromSlice headerBytes).elim (.error .deserializationFailed) .ok
  verifyMetadata header
  failIf (header.blockSize > limits.effMaxBlock) (.blockTooLarge header.blockSize limits.effMaxBlock)
  failIf (header.argonParams.1 > limits.effMaxM)
    (.mCostTooLarge (header.argonParams.1 * 1024) (limits.effMaxM * 1024))
  .ok header

def retrieveFooter (f : Bytes) (p : Path) (limits : Limits) : Result Footer := do
  let pos ← ioFailed p (seekFooter f)
  let footerBytes ← ioFailed p (readAt f pos 29)
  let footer ← Footer.deserialize footerBytes
  failIf (footer.indexSizeStored > limits.effMaxIndex) (.indexTooLarge footer.indexSizeStored limits.effMaxIndex)
  failIf (footer.indexSizePlain > limits.effMaxIndex) (.indexTooLarge footer.indexSizePlain limits.effMaxIndex)
  .ok footer

/-- Bytes are only decrypted when there is a cipher. -/
def openStored (encd : EncryptedData) (cipher : Cipher) (header : Header) (stored : Bytes) (blockNum : Nat) :
    Result Bytes :=
  if cipher ≠ .none then decryptBlock K encd cipher header stored blockNum else .ok stored

def unpackIndex (header : Header) (footer : Footer) (indexBytes : Bytes) : Result Bytes :=
  if footer.indexCompressed then do
    let engine ← DecompressingEngine.new K header.compression
    engine.decompress K indexBytes footer.indexSizePlain
  else .ok indexBytes

def retrieveIndex (f : Bytes) (p : Path) (header : Header) (footer : Footer) (cipher : Cipher) : Result Index := do
  ioFailed p (seekStart footer.indexOffset)
  let stored ← ioFailed p (readAt f footer.indexOffset footer.indexSizeStored)
  let opened ← openStored K (.index footer.indexNonce) cipher header stored 0
  let indexBytes ← unpackIndex K header footer opened
  (K.indexFromSlice indexBytes).elim (.error .deserializationFailed) .ok

/-- `FileStructs::retrieve`. -/
def retrieve (f : Bytes) (p : Path) (limits : Limits) (prompts : Prompts) (confirm : Bool) : Result FileStructs := do
  let header ← retrieveHeader K f p limits
  let footer ← retrieveFooter f p limits
  let cipher ← Cipher.new K prompts header confirm
  let index ← retrieveIndex K f p header footer cipher
  .ok ⟨header, index, cipher, footer⟩

/-- That is the same as always decrypting. -/
theorem openStored_eq (encd : EncryptedData) (cipher : Cipher) (header : Header) (stored : Bytes) (n : Nat) :
    openStored K encd cipher header stored n = decryptBlock K encd cipher header stored n := by
  unfold openStored
  split
  · rfl
  · rename_i hc; rw [not_not.1 hc, decryptBlock_none]

theorem ioFailed_ok {α : Type} {p : Path} {x : Except Errno α} {a : α} : ioFailed p x = .ok a ↔ x = .ok a :=
  Except.mapError_eq_ok

variable {K}

/-- What an accepted header shows. -/
theorem retrieveHeader_ok {f : Bytes} {p : Path} {limits : Limits} {h : Header} :
    retrieveHeader K f p limits = .ok h ↔ ∃ size headerBytes, readAt f 0 4 = .ok size ∧
      leVal size ≤ limits.effMaxHeader ∧ readAt f 4 (leVal size) = .ok headerBytes ∧
      K.headerFromSlice headerBytes = some h ∧ verifyMetadata h = .ok () ∧ h.blockSize ≤ limits.effMaxBlock ∧
      h.argonParams.1 ≤ limits.effMaxM := by
  unfold retrieveHeader
  simp only [Except.bind_eq_ok, ioFailed_ok, failIf_ok, Nat.not_lt]
  constructor
  · rintro ⟨size, hsize, _, hlimit, headerBytes, hbytes, h', hdecode, _, hmeta, _, hblock, _, hcost, hret⟩
    cases hret
    refine ⟨size, headerBytes, hsize, hlimit, hbytes, ?_, hmeta, hblock, hcost⟩
    cases hvec : K.headerFromSlice headerBytes with
    | none => rw [hvec] at hdecode; cases hdecode
    | some header => rw [hvec] at hdecode; exact congrArg some (Except.ok.inj hdecode)
  · rintro ⟨size, headerBytes, hsize, hlimit, hbytes, hdecode, hmeta, hblock, hcost⟩
    exact ⟨size, hsize, (), hlimit, headerBytes, hbytes, h, by rw [hdecode]; rfl, (), hmeta, (), hblock, (), hcost, rfl⟩

/-- What an accepted footer shows. -/
theorem retrieveFooter_ok {f : Bytes} {p : Path} {limits : Limits} {footer : Footer} :
    retrieveFooter f p limits = .ok footer ↔ ∃ pos bytes, seekFooter f = .ok pos ∧ readAt f pos 29 = .ok bytes ∧
      Footer.deserialize bytes = .ok footer ∧ footer.indexSizeStored ≤ limits.effMaxIndex ∧
      footer.indexSizePlain ≤ limits.effMaxIndex := by
  unfold retrieveFooter
  simp only [Except.bind_eq_ok, ioFailed_ok, failIf_ok, Nat.not_lt]
  constructor
  · rintro ⟨pos, hpos, bytes, hbytes, footer', hdecode, _, hstored, _, hplain, hret⟩
    cases hret
    exact ⟨pos, bytes, hpos, hbytes, hdecode, hstored, hplain⟩
  · rintro ⟨pos, bytes, hpos, hbytes, hdecode, hstored, hplain⟩
    exact ⟨pos, hpos, bytes, hbytes, footer, hdecode, (), hstored, (), hplain, rfl⟩

/-- What a loaded archive shows. -/
theorem retrieve_ok {f : Bytes} {p : Path} {limits : Limits} {prompts : Prompts} {confirm : Bool} {s : FileStructs} :
    retrieve K f p limits prompts confirm = .ok s ↔ retrieveHeader K f p limits = .ok s.header ∧
      retrieveFooter f p limits = .ok s.footer ∧ Cipher.new K prompts s.header confirm = .ok s.cipher ∧
      retrieveIndex K f p s.header s.footer s.cipher = .ok s.index := by
  unfold retrieve
  simp only [Except.bind_eq_ok]
  constructor
  · rintro ⟨header, hheader, footer, hfooter, cipher, hcipher, index, hindex, hret⟩
    cases hret
    exact ⟨hheader, hfooter, hcipher, hindex⟩
  · rintro ⟨hheader, hfooter, hcipher, hindex⟩
    exact ⟨_, hheader, _, hfooter, _, hcipher, _, hindex, rfl⟩

variable (K)

/-! ## Reading back what was sealed -/

section

variable {K} {arch : ArchiveWriter} {nonce : Nonce} {sealedIndex : Bytes} {footer : Footer} {limits : Limits}

theorem readAt_mid {a b c : Bytes} {off len : Nat} (ho : off = a.length) (hn : len = b.length) :
    readAt (a ++ b ++ c) off len = .ok b := by
  subst ho hn
  unfold readAt
  rw [if_pos (.inr (by simp)), slice_mid]

variable (K) in
/-- A header that the reader's checks accept in its encoded form. -/
structure Accepted (limits : Limits) (h : Header) (headerBytes : Bytes) : Prop where
  encoded : K.headerToVec h = some headerBytes
  version : h.version = VERSION
  magic : h.magic = MAGIC
  blockSize : h.blockSize ≤ limits.effMaxBlock
  mCost : h.argonParams.1 ≤ limits.effMaxM
  size : headerBytes.length ≤ limits.effMaxHeader
  fits : headerBytes.length < 2 ^ 32

/-- The header is read from the start, whatever stands behind it, and its sizes are checked. -/
theorem retrieveHeader_front (hK : K.Lawful) {h : Header} {headerBytes : Bytes}
    (hvec : K.headerToVec h = some headerBytes) (hversion : h.version = VERSION) (hmagic : h.magic = MAGIC)
    (hsize : headerBytes.length ≤ limits.effMaxHeader) (hfits : headerBytes.length < 2 ^ 32) (rest : Bytes) (p : Path) :
    retrieveHeader K (leBytes 4 (u32 headerBytes.length) ++ headerBytes ++ rest) p limits = (do
      failIf (h.blockSize > limits.effMaxBlock) (.blockTooLarge h.blockSize limits.effMaxBlock)
      failIf (h.argonParams.1 > limits.effMaxM) (.mCostTooLarge (h.argonParams.1 * 1024) (limits.effMaxM * 1024))
      .ok h) := by
  have h4 : readAt (leBytes 4 (u32 headerBytes.length) ++ headerBytes ++ rest) 0 4
      = .ok (leBytes 4 headerBytes.length) := by
    rw [u32_of_lt hfits, List.append_assoc]
    exact readAt_mid (a := []) rfl (by simp)
  have hh : readAt (leBytes 4 (u32 headerBytes.length) ++ headerBytes ++ rest) 4 headerBytes.length = .ok headerBytes :=
    readAt_mid (by simp) rfl
  have hval : leVal (leBytes 4 headerBytes.length) = headerBytes.length := leVal_leBytes hfits
  unfold retrieveHeader ioFailed
  rw [h4]
  simp only [Except.mapError, Except.ok_bind, hval, hh, hK.header hvec, Option.elim_some, verifyMetadata,
    failIf_neg (Nat.not_lt.2 hsize), failIf_neg (not_not.2 hversion), failIf_neg (not_not.2 hmagic)]

theorem retrieveHeader_accepted (hK : K.Lawful) {h : Header} {headerBytes : Bytes}
    (hacc : Accepted K limits h headerBytes) (rest : Bytes) (p : Path) :
    retrieveHeader K (leBytes 4 (u32 headerBytes.length) ++ headerBytes ++ rest) p limits = .ok h := by
  rw [retrieveHeader_front hK hacc.encoded hacc.version hacc.magic hacc.size hacc.fits,
    failIf_neg (Nat.not_lt.2 hacc.blockSize), failIf_neg (Nat.not_lt.2 hacc.mCost)]
  rfl

/-- The fields of the footer of a sealed index. -/
theorem footer_of_sealIndex (hseal : arch.sealIndex K nonce = .ok (sealedIndex, footer)) :
    footer.indexOffset = arch.filePosition ∧ footer.indexSizeStored = u32 sealedIndex.length ∧
      ∃ ib, K.indexToVec arch.index = some ib ∧ footer.indexSizePlain = u32 ib.length := by
  obtain ⟨ib, hib, h⟩ := Except.bind_eq_ok.1 hseal
  obtain ⟨engine, _, h⟩ := Except.bind_eq_ok.1 h
  obtain ⟨c, _, h⟩ := Except.bind_eq_ok.1 h
  obtain ⟨e, _, h⟩ := Except.bind_eq_ok.1 h
  obtain ⟨rfl, rfl⟩ := Prod.mk.inj (Except.ok.inj h)
  exact ⟨rfl, rfl, ib, elim_ok hib, rfl⟩

/-- **A sealed index opens** to the bytes that encode it. -/
theorem unpackIndex_sealIndex (hK : K.Lawful) (hseal : arch.sealIndex K nonce = .ok (sealedIndex, footer))
    (hplain : ∀ b, K.indexToVec arch.index = some b → b.length < 2 ^ 32) :
    ∃ ib kept, K.indexToVec arch.index = some ib ∧
      decryptBlock K (.index footer.indexNonce) arch.cipher arch.header sealedIndex 0 = .ok kept ∧
      unpackIndex K arch.header footer kept = .ok ib := by
  obtain ⟨ib, hib, h⟩ := Except.bind_eq_ok.1 hseal
  obtain ⟨engine, heng, h⟩ := Except.bind_eq_ok.1 h
  obtain ⟨c, hcomp, h⟩ := Except.bind_eq_ok.1 h
  obtain ⟨e, henc, h⟩ := Except.bind_eq_ok.1 h
  obtain ⟨he, hf⟩ := Prod.mk.inj (Except.ok.inj h)
  have hib := elim_ok hib
  have hopen := decryptBlock_encryptBlock hK ((ArchiveWriter.encryptBlock_index K arch _ nonce 0).symm.trans henc)
  have hnonce : footer.indexNonce = nonce := by rw [← hf]
  have hfits : u32 ib.length = ib.length := u32_of_lt (hplain ib hib)
  rw [he] at hopen
  refine ⟨ib, _, hib, hnonce ▸ hopen, ?_⟩
  unfold unpackIndex
  by_cases hsmall : u32 ib.length > c.length
  · have hcompressed : footer.indexCompressed = true := by rw [← hf, if_pos hsmall]
    have hsize : footer.indexSizePlain = ib.length := by rw [← hf]; exact hfits
    have hdec := decompress_compress hK hcomp (n := ib.length) (Nat.le_refl _)
    have hnew := DecompressingEngine.new_of_compressing heng
    rw [(CompressingEngine.new_ok heng).1] at hdec
    rw [if_pos hcompressed, hnew, Except.ok_bind, hsize, if_pos hsmall, hdec]
  · have hraw : footer.indexCompressed = false := by rw [← hf, if_neg hsmall]
    rw [hraw, if_neg (by simp), if_neg hsmall]

/-- The footer is read from the end, whatever stands before it, and its sizes are checked. -/
theorem retrieveFooter_end_eq (front : Bytes) (hfits : footer.Fits) (p : Path) :
    retrieveFooter (front ++ footer.serialize) p limits = (do
      failIf (footer.indexSizeStored > limits.effMaxIndex) (.indexTooLarge footer.indexSizeStored limits.effMaxIndex)
      failIf (footer.indexSizePlain > limits.effMaxIndex) (.indexTooLarge footer.indexSizePlain limits.effMaxIndex)
      .ok footer) := by
  have hlen : (front ++ footer.serialize).length = front.length + 29 := by simp
  have hs : seekFooter (front ++ footer.serialize) = .ok front.length := by
    unfold seekFooter
    rw [if_pos (by omega), hlen, Nat.add_sub_cancel]
  have hf : readAt (front ++ footer.serialize) front.length 29 = .ok footer.serialize := by
    rw [← List.append_nil (front ++ footer.serialize)]
    exact readAt_mid rfl (by simp)
  unfold retrieveFooter ioFailed
  rw [hs]
  simp only [Except.mapError, Except.ok_bind, hf, Footer.deserialize_serialize hfits]

theorem retrieveFooter_end (front : Bytes) (hfits : footer.Fits) (hstored : footer.indexSizeStored ≤ limits.effMaxIndex)
    (hplain : footer.indexSizePlain ≤ limits.effMaxIndex) (p : Path) :
    retrieveFooter (front ++ footer.serialize) p limits = .ok footer := by
  rw [retrieveFooter_end_eq front hfits, failIf_neg (Nat.not_lt.2 hstored), failIf_neg (Nat.not_lt.2 hplain)]
  rfl

/-- The index is read from where it was written. -/
theorem retrieveIndex_sealed (hK : K.Lawful) (hseal : arch.sealIndex K nonce = .ok (sealedIndex, footer))
    {front : Bytes} (hfront : front.length = arch.filePosition) (hoff : arch.filePosition < 2 ^ 63)
    (hstored : sealedIndex.length < 2 ^ 32) (hplain : ∀ b, K.indexToVec arch.index = some b → b.length < 2 ^ 32)
    (rest : Bytes) (p : Path) :
    retrieveIndex K (front ++ sealedIndex ++ rest) p arch.header footer arch.cipher = .ok arch.index := by
  obtain ⟨hoffset, hsize, _⟩ := footer_of_sealIndex hseal
  obtain ⟨ib, kept, hib, hopen, hunpack⟩ := unpackIndex_sealIndex hK hseal hplain
  have hseek : seekStart footer.indexOffset = .ok () := if_pos (hoffset ▸ hoff)
  have hread : readAt (front ++ sealedIndex ++ rest) footer.indexOffset footer.indexSizeStored = .ok sealedIndex :=
    readAt_mid (hoffset.trans hfront.symm) (hsize.trans (u32_of_lt hstored))
  unfold retrieveIndex ioFailed
  rw [hseek, hread]
  simp only [Except.mapError, Except.ok_bind, openStored_eq, hopen, hunpack, hK.index hib, Option.elim_some]

/-! ## What `finish` writes -/

/-- `finish` is `Finalize` with the files and the stream position that the writer has. -/
theorem ArchiveWriter.finish_eq (nonce : Nonce) (arch : ArchiveWriter) :
    arch.finish K nonce = finalize K nonce arch.index.files arch.streamPosition arch := rfl

/-- The index that `finish` seals. -/
def ArchiveWriter.finalIndex (arch : ArchiveWriter) : Index :=
  { arch.index with totalStreamSize := arch.streamPosition }

/-- **What `finish` writes is read back**, whatever stood in the file at and after the index: the header in front, the
index with the stream position as its total size, and the footer with the offset of the index. -/
theorem finish_retrieve (hK : K.Lawful) {arch arch' : ArchiveWriter} {limits : Limits} {headerBytes data : Bytes}
    {nonce : Nonce} {prompts : Prompts} {confirm : Bool}
    (hheader : Accepted K limits arch.header headerBytes)
    (hkey : Cipher.new K prompts arch.header confirm = .ok arch.cipher)
    (hfront : arch.writer.bytes.take arch.filePosition = leBytes 4 (u32 headerBytes.length) ++ headerBytes ++ data)
    (hpos : arch.writer.pos = arch.filePosition) (hinside : arch.filePosition ≤ arch.writer.bytes.length)
    (hoff : arch.filePosition < 2 ^ 63)
    (hplain : ∀ b, K.indexToVec arch.finalIndex = some b → b.length ≤ limits.effMaxIndex ∧ b.length < 2 ^ 32)
    (hsealed : ∀ sealedIndex footer, { arch with index := arch.finalIndex }.sealIndex K nonce
      = .ok (sealedIndex, footer) → sealedIndex.length ≤ limits.effMaxIndex ∧ sealedIndex.length < 2 ^ 32)
    (hfinish : arch.finish K nonce = (.ok (), arch')) (p : Path) :
    ∃ footer, retrieve K arch'.writer.bytes p limits prompts confirm
        = .ok ⟨arch.header, arch.finalIndex, arch.cipher, footer⟩ ∧ footer.indexOffset = arch.filePosition := by
  rw [ArchiveWriter.finish_eq] at hfinish
  obtain ⟨sealedIndex, footer, w, hseal, rfl, _, hbytes⟩ := finalize_ok hfinish
  have hfile : w.bytes = arch.writer.bytes.take arch.filePosition ++ sealedIndex ++ footer.serialize := by
    rw [hbytes (hpos ▸ hinside), finalize_bytes (hpos ▸ hinside) hpos.symm, hpos, List.append_assoc]
  have hsize := hsealed sealedIndex footer hseal
  obtain ⟨hoffset, hfstored, ib, hib, hfplain⟩ := footer_of_sealIndex hseal
  have hhead : retrieveHeader K w.bytes p limits = .ok arch.header := by
    rw [hfile, hfront, List.append_assoc, List.append_assoc]
    exact retrieveHeader_accepted hK hheader _ p
  have hfooter : retrieveFooter w.bytes p limits = .ok footer := by
    rw [hfile]
    refine retrieveFooter_end _ ⟨?_, ?_, ?_⟩ ?_ ?_ p
    · rw [hoffset]; exact Nat.lt_trans hoff (by decide)
    · rw [hfstored]; exact u32_lt _
    · rw [hfplain]; exact u32_lt _
    · rw [hfstored]; exact Nat.le_trans (u32_le _) hsize.1
    · rw [hfplain]; exact Nat.le_trans (u32_le _) (hplain ib hib).1
  have hindex := retrieveIndex_sealed hK hseal (List.length_take_of_le hinside) hoff hsize.2
    (fun b hb => (hplain b hb).2) footer.serialize p
  refine ⟨footer, ?_, hoffset⟩
  show retrieve K w.bytes p limits prompts confirm = _
  unfold retrieve
  rw [hhead, Except.ok_bind, hfooter, Except.ok_bind, hkey, Except.ok_bind, hfile]
  exact Except.bind_eq_ok.2 ⟨_, hindex, rfl⟩

/-- An empty index written over the longer end of an older file. -/
theorem finish_retrieve_stale :
    let K := Crates.tabled [Header.stored 2] [⟨[], [], 5⟩]
    let sink : Sink := ⟨[0, 0, 0, 0, 7] ++ List.replicate 40 9, 5, fun _ => none, 0⟩
    let arch : ArchiveWriter := ⟨sink, ⟨[], [], 0⟩, 5, 5, .none, Header.stored 2⟩
    ∃ arch', arch.finish K (Vector.replicate 12 0) = (.ok (), arch') ∧ arch'.writer.bytes.length = 34 ∧
      ∃ footer, retrieve K arch'.writer.bytes [] Limits.default ⟨none, none⟩ false
        = .ok ⟨Header.stored 2, ⟨[], [], 5⟩, .none, footer⟩ ∧ footer.indexOffset = 5 := by
  intro K sink arch
  have hok : (arch.finish K (Vector.replicate 12 0)).1 = .ok () := by decide +kernel
  have hsealed : ({ arch with index := arch.finalIndex } : ArchiveWriter).sealIndex K (Vector.replicate 12 0)
      = .ok ([], ⟨5, 0, 0, false, Vector.replicate 12 0⟩) := by decide +kernel
  have hheader : Accepted K Limits.default arch.header [] :=
    ⟨by decide +kernel, rfl, rfl, by decide, by decide, by decide, by decide⟩
  have hfront : arch.writer.bytes.take arch.filePosition = leBytes 4 (u32 0) ++ [] ++ [7] := rfl
  refine ⟨_, Act.run_of_ok hok, by decide +kernel, ?_⟩
  refine finish_retrieve (Crates.tabled_lawful _ _) hheader rfl hfront rfl (by decide) (by decide)
    (fun b hb => ?_) (fun sealedIndex footer h => ?_) (Act.run_of_ok hok) []
  · have hvec : K.indexToVec arch.finalIndex = some [] := by decide +kernel
    obtain rfl : [] = b := Option.some.inj (hvec.symm.trans hb)
    decide
  · obtain ⟨rfl, _⟩ := Prod.mk.inj (Except.ok.inj (hsealed.symm.trans h))
    decide

end

/-! ## Images -/

/-- An archive taken apart. -/
structure Image where
  header : Header
  cipher : Cipher
  index : Index
  headerBytes : Bytes
  data : Bytes
  sealedIndex : Bytes
  footer : Footer
  headerVec : K.headerToVec header = some headerBytes
  sealedBy : ∃ (arch : ArchiveWriter) (nonce : Nonce), arch.header = header ∧ arch.cipher = cipher ∧
    arch.index = index ∧ arch.filePosition = 4 + headerBytes.length + data.length ∧
    arch.sealIndex K nonce = .ok (sealedIndex, footer)

namespace Image

variable {K} (im : Image K)

/-- Where the data region starts. -/
def start : Nat := 4 + im.headerBytes.length

/-- The header with its length in front. -/
def lead : Bytes := leBytes 4 (u32 im.headerBytes.length) ++ im.headerBytes

/-- The file. -/
def bytes : Bytes := im.lead ++ im.data ++ im.sealedIndex ++ im.footer.serialize

/-- The image with another data region of the same length. -/
def withData (data : Bytes) (h : data.length = im.data.length) : Image K :=
  { im with data := data, sealedBy := by rw [h]; exact im.sealedBy }

/-- What the loader checks, and that the lengths fit their fields. -/
structure Within (limits : Limits) : Prop where
  version : im.header.version = VERSION
  magic : im.header.magic = MAGIC
  blockSize : im.header.blockSize ≤ limits.effMaxBlock
  mCost : im.header.argonParams.1 ≤ limits.effMaxM
  headerSize : im.headerBytes.length ≤ limits.effMaxHeader
  headerFits : im.headerBytes.length < 2 ^ 32
  indexStored : im.sealedIndex.length ≤ limits.effMaxIndex
  indexPlain : ∀ b, K.indexToVec im.index = some b → b.length ≤ limits.effMaxIndex ∧ b.length < 2 ^ 32
  storedFits : im.sealedIndex.length < 2 ^ 32
  offsetFits : im.start + im.data.length < 2 ^ 63

@[simp] theorem length_lead : im.lead.length = im.start := by simp [lead, start]

theorem length_bytes : im.bytes.length = im.start + im.data.length + im.sealedIndex.length + 29 := by
  simp [bytes, Nat.add_assoc]

variable {im} {limits : Limits}

/-- Damage leaves an image within the limits. -/
theorem Within.withData (hl : im.Within limits) {data : Bytes} (h : data.length = im.data.length) :
    (im.withData data h).Within limits :=
  { hl with offsetFits := by show im.start + data.length < 2 ^ 63; rw [h]; exact hl.offsetFits }

/-- The fields of the footer. -/
theorem footer_eq (hl : im.Within limits) : im.footer.indexOffset = im.start + im.data.length ∧
    im.footer.indexSizeStored = im.sealedIndex.length ∧ im.footer.Fits ∧
    im.footer.indexSizePlain ≤ limits.effMaxIndex := by
  obtain ⟨arch, nonce, _, _, hindex, hpos, hseal⟩ := im.sealedBy
  obtain ⟨hoff, hstored, ib, hib, hplain⟩ := footer_of_sealIndex hseal
  have hfits := hl.offsetFits
  unfold start at hfits ⊢
  refine ⟨hoff.trans hpos, hstored.trans (u32_of_lt hl.storedFits), ⟨?_, ?_, ?_⟩, ?_⟩
  · rw [hoff, hpos]; omega
  · rw [hstored]; exact u32_lt _
  · rw [hplain]; exact u32_lt _
  · rw [hplain]; exact Nat.le_trans (u32_le _) (hl.indexPlain ib (hindex ▸ hib)).1

theorem retrieveHeader_image (hK : K.Lawful) (hl : im.Within limits) (p : Path) :
    retrieveHeader K im.bytes p limits = .ok im.header := by
  have hacc : Accepted K limits im.header im.headerBytes :=
    ⟨im.headerVec, hl.version, hl.magic, hl.blockSize, hl.mCost, hl.headerSize, hl.headerFits⟩
  have hbytes : im.bytes = leBytes 4 (u32 im.headerBytes.length) ++ im.headerBytes ++
      (im.data ++ im.sealedIndex ++ im.footer.serialize) := by simp [bytes, lead]
  rw [hbytes]
  exact retrieveHeader_accepted hK hacc _ p

theorem retrieveFooter_image (hl : im.Within limits) (p : Path) :
    retrieveFooter im.bytes p limits = .ok im.footer := by
  obtain ⟨_, hstored, hfits, hplain⟩ := footer_eq hl
  exact retrieveFooter_end _ hfits (hstored ▸ hl.indexStored) hplain p

theorem retrieveIndex_image (hK : K.Lawful) (hl : im.Within limits) (p : Path) :
    retrieveIndex K im.bytes p im.header im.footer im.cipher = .ok im.index := by
  obtain ⟨arch, nonce, hheader, hcipher, hindex, hpos, hseal⟩ := im.sealedBy
  have hoff := hl.offsetFits
  have hfront : (im.lead ++ im.data).length = arch.filePosition := by
    rw [hpos, List.length_append, length_lead, start]
  rw [← hheader, ← hcipher, ← hindex]
  exact retrieveIndex_sealed hK hseal hfront (hpos ▸ hoff) hl.storedFits
    (fun b hb => (hl.indexPlain b (hindex ▸ hb)).2) _ p

/-- **What was written is read back**: header, index and footer, over any data region. -/
theorem retrieve_image (hK : K.Lawful) (hl : im.Within limits) {prompts : Prompts} {confirm : Bool}
    (hc : Cipher.new K prompts im.header confirm = .ok im.cipher) (p : Path) :
    retrieve K im.bytes p limits prompts confirm = .ok ⟨im.header, im.index, im.cipher, im.footer⟩ := by
  unfold retrieve
  rw [retrieveHeader_image hK hl, Except.ok_bind, retrieveFooter_image hl, Except.ok_bind, hc, Except.ok_bind,
    retrieveIndex_image hK hl, Except.ok_bind]

end Image
end Cryo
