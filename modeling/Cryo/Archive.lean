import Cryo.Append
import Cryo.Extract

/-!
# What an archive holds

The abstract side of an archive is the list of its raw blocks, whose concatenation is the stream, and its entries with
their ranges in it. `Region` relates the raw blocks to the data region and to the block entries, `Finished` to a whole
archive.

* `Region.readBlock`: a raw block that fits the limits is read back from the region.
* `Run.finished`: a run on a writer that stands behind a region gives an archive that holds the old raw blocks and the
  chunks of the new stream.
* `Finished.new_reader`, `Finished.decoded`, `Finished.readable`: it opens, and its blocks are the raw blocks.
-/

namespace Cryo

open Posix Bytes Chunk

variable (K : Crates)

/-- The data region from `start` on: the sealed forms of `raws` one after another, described by `block`, with no length
cut to 32 bits. -/
structure Region (h : Header) (cipher : Cipher) (start : Nat) (raws : List Bytes) (block : List BlockEntry)
    (data : Bytes) : Prop where
  sealing : ∃ processed, List.Forall₂ (Seals K h.compression cipher h.archiveId) (numbered 0 raws) processed ∧
    block = blockEntries start processed ∧ data = processed.flatMap ProcessedBlock.processedData ∧
    ∀ b ∈ processed, b.processedData.length < 2 ^ 32

variable {K} {h : Header} {cipher : Cipher} {start : Nat} {raws : List Bytes} {block : List BlockEntry} {data : Bytes}

/-- The recorded length of blocks whose lengths are not cut. -/
theorem storedSize_eq : ∀ {bs : List ProcessedBlock}, (∀ b ∈ bs, b.processedData.length < 2 ^ 32) →
    storedSize bs = (bs.flatMap ProcessedBlock.processedData).length
  | [], _ => rfl
  | b :: bs, hlt => by
    have hcons : storedSize (b :: bs) = u32 b.processedData.length + storedSize bs := by simp [storedSize]
    rw [hcons, storedSize_eq fun c hc => hlt c (List.mem_cons_of_mem _ hc), u32_of_lt (hlt b List.mem_cons_self),
      List.flatMap_cons, List.length_append]

theorem storedSize_le (bs : List ProcessedBlock) :
    storedSize bs ≤ (bs.flatMap ProcessedBlock.processedData).length := by
  induction bs with
  | nil => exact Nat.le_refl _
  | cons b bs ih =>
    have hcons : storedSize (b :: bs) = u32 b.processedData.length + storedSize bs := by simp [storedSize]
    rw [hcons, List.flatMap_cons, List.length_append]
    exact Nat.add_le_add (u32_le _) ih

/-- When the recorded lengths add up to the real ones, no length is cut. -/
theorem lt_of_storedSize_eq : ∀ {bs : List ProcessedBlock},
    storedSize bs = (bs.flatMap ProcessedBlock.processedData).length → ∀ b ∈ bs, b.processedData.length < 2 ^ 32
  | [], _, _, hb => by cases hb
  | b :: bs, h, c, hc => by
    have hcons : storedSize (b :: bs) = u32 b.processedData.length + storedSize bs := by simp [storedSize]
    have h1 := storedSize_le bs
    have h2 := u32_le b.processedData.length
    rw [hcons, List.flatMap_cons, List.length_append] at h
    rcases List.mem_cons.1 hc with rfl | hc
    · exact u32_eq_iff.1 (by omega)
    · exact lt_of_storedSize_eq (by omega) c hc

/-- Sealed blocks are short when the raw blocks leave room for the tag. -/
theorem length_lt_of_seals {compression : Compressor} {archiveId : ArchiveId} : ∀ {n : Nat} {raws : List Bytes}
    {bs : List ProcessedBlock}, List.Forall₂ (Seals K compression cipher archiveId) (numbered n raws) bs →
    (∀ raw ∈ raws, raw.length + 16 < 2 ^ 32) → ∀ b ∈ bs, b.processedData.length < 2 ^ 32
  | _, [], _, .nil, _, _, hc => by cases hc
  | n, raw :: raws, b :: bs, .cons hb hbs, hsmall, c, hc => by
    rcases List.mem_cons.1 hc with rfl | hc
    · have := hb.length
      have := cipher.overhead_le
      have := hsmall raw List.mem_cons_self
      dsimp only at *
      omega
    · exact length_lt_of_seals hbs (fun x hx => hsmall x (List.mem_cons_of_mem _ hx)) c hc

theorem forall₂_numbered_append {compression : Compressor} {archiveId : ArchiveId} {raws new : List Bytes}
    {bs cs : List ProcessedBlock}
    (h1 : List.Forall₂ (Seals K compression cipher archiveId) (numbered 0 raws) bs)
    (h2 : List.Forall₂ (Seals K compression cipher archiveId) (numbered raws.length new) cs) :
    List.Forall₂ (Seals K compression cipher archiveId) (numbered 0 (raws ++ new)) (bs ++ cs) := by
  rw [numbered_append, Nat.zero_add]
  exact List.rel_append h1 h2

theorem blockEntries_append : ∀ (offset : Nat) (bs cs : List ProcessedBlock),
    blockEntries offset (bs ++ cs) = blockEntries offset bs ++ blockEntries (offset + storedSize bs) cs
  | _, [], _ => by simp [blockEntries, storedSize]
  | offset, b :: bs, cs => by
    simp [blockEntries, blockEntries_append _ bs cs, storedSize, Nat.add_assoc]

/-- The `i`-th sealed block, where it is in the region. -/
theorem locate_block {compression : Compressor} {archiveId : ArchiveId} : ∀ {raws : List Bytes} {n : Nat}
    {bs : List ProcessedBlock} {i : Nat} {raw : Bytes} (start : Nat),
    List.Forall₂ (Seals K compression cipher archiveId) (numbered n raws) bs →
    (∀ b ∈ bs, b.processedData.length < 2 ^ 32) → raws[i]? = some raw →
    ∃ b pre post, Seals K compression cipher archiveId ⟨n + i, raw⟩ b ∧
      bs.flatMap ProcessedBlock.processedData = pre ++ b.processedData ++ post ∧
      (blockEntries start bs)[i]? = some (b.entry (start + pre.length)) ∧ b.processedData.length < 2 ^ 32
  | [], _, _, _, _, _, _, _, hi => by simp at hi
  | raw₀ :: raws, n, b :: bs, 0, raw, start, .cons hb hbs, hlt, hi => by
    simp only [List.getElem?_cons_zero, Option.some.injEq] at hi
    subst hi
    exact ⟨b, [], bs.flatMap ProcessedBlock.processedData, hb, by simp, rfl, hlt b List.mem_cons_self⟩
  | raw₀ :: raws, n, b :: bs, i + 1, raw, start, .cons hb hbs, hlt, hi => by
    obtain ⟨c, pre, post, h1, h2, h3, h4⟩ := locate_block (start + u32 b.processedData.length) hbs
      (fun x hx => hlt x (List.mem_cons_of_mem _ hx)) (i := i) (by simpa using hi)
    refine ⟨c, b.processedData ++ pre, post, ?_, ?_, ?_, h4⟩
    · rwa [Nat.add_assoc, Nat.add_comm 1 i] at h1
    · rw [List.flatMap_cons, h2]; simp
    · rw [u32_of_lt (hlt b List.mem_cons_self)] at h3
      simpa [blockEntries, u32_of_lt (hlt b List.mem_cons_self), Nat.add_assoc] using h3

/-- Short blocks with a tag pass the check of their stored size. -/
theorem le_maxStored {h : Header} {n : Nat} (hn : n ≤ h.blockSize + 16) (hlt : n < 2 ^ 32) : n ≤ h.maxStored := by
  refine le_min ?_ (Nat.le_sub_one_of_lt (hlt.trans_le (Nat.pow_le_pow_right (by decide) (by decide))))
  unfold STORED_BLOCK_OVERHEAD
  omega

namespace Region

theorem nil (h : Header) (cipher : Cipher) (start : Nat) : Region K h cipher start [] [] [] :=
  ⟨⟨[], .nil, rfl, rfl, by simp⟩⟩

theorem length_block (hr : Region K h cipher start raws block data) : block.length = raws.length := by
  obtain ⟨processed, hseals, rfl, _⟩ := hr.sealing
  rw [length_blockEntries, ← hseals.length_eq, length_numbered]

/-- **More blocks behind the region** extend it. -/
theorem append (hr : Region K h cipher start raws block data) {new : List Bytes} {bs : List ProcessedBlock}
    (hseals : List.Forall₂ (Seals K h.compression cipher h.archiveId) (numbered raws.length new) bs)
    (hlt : ∀ b ∈ bs, b.processedData.length < 2 ^ 32) :
    Region K h cipher start (raws ++ new) (block ++ blockEntries (start + data.length) bs)
      (data ++ bs.flatMap ProcessedBlock.processedData) := by
  obtain ⟨processed, hold, rfl, rfl, holdlt⟩ := hr.sealing
  refine ⟨processed ++ bs, forall₂_numbered_append hold hseals, ?_, by rw [List.flatMap_append], fun b hb => ?_⟩
  · rw [blockEntries_append, storedSize_eq holdlt]
  · rcases List.mem_append.1 hb with hb | hb
    · exact holdlt b hb
    · exact hlt b hb

/-- The entry of a raw block, and the stored bytes it describes. -/
theorem entry (hr : Region K h cipher start raws block data) {i : Nat} {raw : Bytes} (hi : raws[i]? = some raw) :
    ∃ b pre post, Seals K h.compression cipher h.archiveId ⟨i, raw⟩ b ∧ b.processedData.length < 2 ^ 32 ∧
      data = pre ++ b.processedData ++ post ∧ block[i]? = some (b.entry (start + pre.length)) := by
  obtain ⟨processed, hseals, rfl, rfl, hlt⟩ := hr.sealing
  obtain ⟨b, pre, post, h1, h2, h3, h4⟩ := locate_block start hseals hlt hi
  exact ⟨b, pre, post, by rwa [Nat.zero_add] at h1, h4, h2, h3⟩

/-- What an entry records of its raw block. -/
theorem entry_records (hr : Region K h cipher start raws block data) {i : Nat} {raw : Bytes} {e : BlockEntry}
    (hi : raws[i]? = some raw) (he : block[i]? = some e) :
    e.sizePlain = u32 raw.length ∧ e.checksum = K.blake3 raw := by
  obtain ⟨b, pre, post, hseal, _, _, hb⟩ := hr.entry hi
  cases he.symm.trans hb
  exact ⟨hseal.sizePlain, hseal.checksum⟩

/-- **A raw block is read back** from a file that has the region in it. -/
theorem readBlock {r : ArchiveReader} (hr : Region K r.header r.cipher start raws r.index.block data)
    {front back : Bytes} (hbytes : r.reader = front ++ data ++ back) (hfront : front.length = start)
    (hoff : start + data.length < 2 ^ 63) {i : Nat} {raw : Bytes} (hi : raws[i]? = some raw)
    (hlt : raw.length < 2 ^ 32) (hfits : raw.length ≤ r.header.blockSize) :
    ∃ e, r.index.block[i]? = some e ∧ r.readBlock K e i r.engine = .ok raw ∧ K.blake3 raw = e.checksum := by
  obtain ⟨b, pre, post, hseal, hstored, hdata, he⟩ := hr.entry hi
  refine ⟨_, he, ArchiveReader.readBlock_ok.2 ⟨?_, ?_⟩, hseal.checksum.symm⟩
  · obtain ⟨kept, hopen, _, hkept⟩ := hseal.opens r.header rfl
    have hplain : (b.entry (start + pre.length)).sizePlain = raw.length := hseal.sizePlain.trans (u32_of_lt hlt)
    have hsize : (b.entry (start + pre.length)).sizeStored = b.processedData.length := u32_of_lt hstored
    have hmax : (b.entry (start + pre.length)).sizeStored ≤ r.header.maxStored := by
      have h1 := hseal.length
      have h2 := r.cipher.overhead_le
      dsimp only at h1
      rw [hsize]
      exact le_maxStored (by omega) hstored
    have hseek : seekStart (start + pre.length) = .ok () := if_pos (by rw [hdata] at hoff; simp at hoff; omega)
    have hread : readAt r.reader (start + pre.length) b.processedData.length = .ok b.processedData := by
      have : r.reader = (front ++ pre) ++ b.processedData ++ (post ++ back) := by rw [hbytes, hdata]; simp
      rw [this]
      exact readAt_mid (by simp [hfront]) rfl
    unfold ArchiveReader.openBlock
    rw [failIf_neg (by rw [hplain]; exact Nat.not_lt.2 hfits), Except.ok_bind, failIf_neg (Nat.not_lt.2 hmax),
      Except.ok_bind,
      (show (b.entry (start + pre.length)).offset = start + pre.length from rfl), hseek, hsize, hread]
    have hopen' : openStored K (.block (b.entry (start + pre.length)).nonce) r.cipher r.header b.processedData i
        = .ok kept := (openStored_eq K _ _ _ _ _).trans hopen
    simp only [ioFailed, Except.mapError, Except.ok_bind, hopen']
    unfold unpackBlock
    rw [(show (b.entry (start + pre.length)).isCompressed = b.isCompressed from rfl), hplain]
    by_cases hc : b.isCompressed = true
    · rw [if_pos hc] at hkept
      rw [if_pos hc]
      exact hkept _ (Nat.le_refl _)
    · rw [if_neg hc] at hkept
      rw [if_neg hc, hkept]
  · exact (hseal.sizePlain.trans (u32_of_lt hlt)).symm

end Region

/-! ## Finished archives -/

theorem length_chunks_le {bs : Nat} {srcs : List Source} (hz : ReadState.Feedable bs srcs) {c : Bytes}
    (hc : c ∈ chunks bs (Source.stream srcs)) : c.length ≤ bs := by
  rcases hz with hpos | hempty
  · exact (length_of_mem_chunks hpos hc).2
  · have hnil : Source.stream srcs = [] := List.flatMap_eq_nil_iff.2 hempty
    rw [hnil, chunks_nil] at hc
    cases hc

/-- The length of the sealed index, which stands between the data and the footer. -/
def ArchiveWriter.indexSize (arch : ArchiveWriter) : Nat := arch.writer.bytes.length - arch.filePosition - 29

/-- The footer of a file. -/
def ArchiveWriter.footer (arch : ArchiveWriter) : Result Footer :=
  Footer.deserialize (slice (arch.writer.bytes.length - 29) 29 arch.writer.bytes)

/-- It is read back where it ends the file. -/
theorem ArchiveWriter.footer_of_end {arch : ArchiveWriter} {front : Bytes} {footer : Footer}
    (h : arch.writer.bytes = front ++ footer.serialize) (hfits : footer.Fits) : arch.footer = .ok footer := by
  have hend : slice ((front ++ footer.serialize).length - 29) 29 (front ++ footer.serialize) = footer.serialize := by
    rw [← List.append_nil (front ++ footer.serialize)]
    refine slice_mid_of_eq ?_ (by simp)
    simp only [List.length_append, List.append_nil, Footer.length_serialize]
    omega
  unfold ArchiveWriter.footer
  rw [h, hend, Footer.deserialize_serialize hfits]

/-- The reader of a finished archive. -/
def ArchiveWriter.reader (arch : ArchiveWriter) (p out : Path) (limits : Limits) : ArchiveReader where
  root := out
  path := p
  reader := arch.writer.bytes
  index := arch.index
  header := arch.header
  cipher := arch.cipher
  limits := limits

variable (K) in
/-- What the loader checks of the sizes in an archive, and that they fit their fields. -/
structure Sizes (limits : Limits) (arch : ArchiveWriter) : Prop where
  blockSize : arch.header.blockSize ≤ limits.effMaxBlock
  mCost : arch.header.argonParams.1 ≤ limits.effMaxM
  header : ∀ b, K.headerToVec arch.header = some b → b.length ≤ limits.effMaxHeader ∧ b.length < 2 ^ 32
  index : ∀ b, K.indexToVec arch.index = some b → b.length ≤ limits.effMaxIndex ∧ b.length < 2 ^ 32
  stored : arch.indexSize ≤ limits.effMaxIndex ∧ arch.indexSize < 2 ^ 32
  offset : arch.filePosition < 2 ^ 63

/-- Archives within the default limits have short blocks. -/
theorem Sizes.small {arch : ArchiveWriter} (hs : Sizes K Limits.default arch) :
    arch.header.blockSize + 16 < 2 ^ 32 := by
  have := hs.blockSize
  unfold Limits.effMaxBlock Limits.default MAX_BLOCK_SIZE at this
  dsimp only [Option.getD_some] at this
  omega

/-- The file of a finished archive is the image, and its blocks hold `raws`, the whole stream. -/
structure Finished (arch : ArchiveWriter) (im : Image K) (raws : List Bytes) : Prop where
  bytes : arch.writer.bytes = im.bytes
  index : arch.index = im.index
  header : arch.header = im.header
  cipher : arch.cipher = im.cipher
  filePosition : arch.filePosition = im.start + im.data.length
  version : arch.header.version = VERSION
  magic : arch.header.magic = MAGIC
  region : Region K arch.header arch.cipher im.start raws arch.index.block im.data
  total : arch.index.totalStreamSize = raws.flatten.length
  blockFits : ∀ raw ∈ raws, raw.length ≤ arch.header.blockSize

namespace Finished

variable {arch : ArchiveWriter} {im : Image K} {limits : Limits}

theorem blocks_small (hf : Finished arch im raws) (hsmall : arch.header.blockSize + 16 < 2 ^ 32) :
    ∀ raw ∈ raws, raw.length < 2 ^ 32 := fun raw hraw => by
  have hfits := hf.blockFits raw hraw
  omega

/-- Between the data and the footer stands the sealed index. -/
theorem indexSize (hf : Finished arch im raws) : arch.indexSize = im.sealedIndex.length := by
  unfold ArchiveWriter.indexSize
  rw [hf.bytes, hf.filePosition, Image.length_bytes]
  omega

theorem within (hf : Finished arch im raws) (hs : Sizes K limits arch) : im.Within limits := by
  have hsize := hf.indexSize
  have hheader := hs.header im.headerBytes (by rw [hf.header]; exact im.headerVec)
  exact {
    version := hf.header ▸ hf.version
    magic := hf.header ▸ hf.magic
    blockSize := hf.header ▸ hs.blockSize
    mCost := hf.header ▸ hs.mCost
    headerSize := hheader.1
    headerFits := hheader.2
    indexStored := hsize ▸ hs.stored.1
    indexPlain := hf.index ▸ hs.index
    storedFits := hsize ▸ hs.stored.2
    offsetFits := hf.filePosition ▸ hs.offset }

/-- **A finished archive is loaded** as it was written. -/
theorem retrieve (hK : K.Lawful) (hf : Finished arch im raws) (hs : Sizes K limits arch) {prompts : Prompts}
    {confirm : Bool} (hc : Cipher.new K prompts arch.header confirm = .ok arch.cipher) (p : Path) :
    retrieve K arch.writer.bytes p limits prompts confirm = .ok ⟨arch.header, arch.index, arch.cipher, im.footer⟩ := by
  rw [hf.header, hf.cipher] at hc
  rw [hf.bytes, hf.header, hf.index, hf.cipher]
  exact Image.retrieve_image hK (hf.within hs) hc p

theorem new_reader (hK : K.Lawful) (hf : Finished arch im raws) (hs : Sizes K limits arch) {prompts : Prompts}
    {confirm : Bool} (hc : Cipher.new K prompts arch.header confirm = .ok arch.cipher) (p out : Path) :
    ArchiveReader.new K arch.writer.bytes p out limits prompts confirm = .ok (arch.reader p out limits) := by
  unfold ArchiveReader.new
  rw [hf.retrieve hK hs hc]
  rfl

/-- A raw block shorter than 4 GiB is read back. -/
theorem readBlock (hf : Finished arch im raws) (hoff : arch.filePosition < 2 ^ 63) (p out : Path) (limits : Limits)
    {i : Nat} {raw : Bytes} (hi : raws[i]? = some raw) (hlt : raw.length < 2 ^ 32) :
    ∃ e, arch.index.block[i]? = some e ∧
      (arch.reader p out limits).readBlock K e i (arch.reader p out limits).engine = .ok raw ∧
      K.blake3 raw = e.checksum := by
  have hbytes : (arch.reader p out limits).reader = im.lead ++ im.data ++ (im.sealedIndex ++ im.footer.serialize) := by
    show arch.writer.bytes = _
    rw [hf.bytes]; simp [Image.bytes]
  exact Region.readBlock (r := arch.reader p out limits) hf.region hbytes im.length_lead
    (hf.filePosition ▸ hoff) hi hlt (hf.blockFits raw (List.mem_of_getElem? hi))

/-- The raw blocks are the decoded blocks. -/
theorem decoded (hf : Finished arch im raws) (hoff : arch.filePosition < 2 ^ 63)
    (hlt : ∀ raw ∈ raws, raw.length < 2 ^ 32) (p out : Path) (limits : Limits) :
    (arch.reader p out limits).Decoded K (arch.reader p out limits).engine raws where
  lengths := by
    refine List.ext_getElem? fun i => ?_
    rw [List.getElem?_map, List.getElem?_map]
    cases hi : raws[i]? with
    | none =>
      have : arch.index.block[i]? = none := by
        rw [List.getElem?_eq_none_iff] at hi ⊢
        rwa [hf.region.length_block]
      show _ = (arch.index.block[i]?).map _
      rw [this]; rfl
    | some raw =>
      obtain ⟨e, he, hread, _⟩ := hf.readBlock hoff p out limits hi (hlt raw (List.mem_of_getElem? hi))
      show _ = (arch.index.block[i]?).map _
      rw [he, Option.map_some, Option.map_some, (ArchiveReader.readBlock_ok.1 hread).2]
  reads := by
    intro i block plain hb hread _
    have hi : i < raws.length := by
      rw [← hf.region.length_block]
      exact (List.getElem?_eq_some_iff.1 hb).1
    obtain ⟨e, he, hread', _⟩ := hf.readBlock hoff p out limits (List.getElem?_eq_getElem hi)
      (hlt _ (List.getElem_mem hi))
    cases he.symm.trans hb
    rw [hread] at hread'
    cases hread'
    exact List.getElem?_eq_getElem hi

theorem readable (hf : Finished arch im raws) (hoff : arch.filePosition < 2 ^ 63)
    (hlt : ∀ raw ∈ raws, raw.length < 2 ^ 32) (p out : Path) (limits : Limits) :
    (arch.reader p out limits).Readable K (arch.reader p out limits).engine := by
  intro i block hb
  have hi : i < raws.length := by
    rw [← hf.region.length_block]
    exact (List.getElem?_eq_some_iff.1 hb).1
  obtain ⟨e, he, hread, hsum⟩ := hf.readBlock hoff p out limits (List.getElem?_eq_getElem hi)
    (hlt _ (List.getElem_mem hi))
  cases he.symm.trans hb
  exact ⟨_, hread, hsum⟩

end Finished

/-! ## Runs -/

variable (K) in
/-- A writer that stands behind the blocks `raws`, with everything before it written. -/
structure Positioned (arch : ArchiveWriter) (headerBytes data : Bytes) (raws : List Bytes) : Prop where
  headerVec : K.headerToVec arch.header = some headerBytes
  version : arch.header.version = VERSION
  magic : arch.header.magic = MAGIC
  before : arch.writer.bytes.take arch.writer.pos = leBytes 4 (u32 headerBytes.length) ++ headerBytes ++ data
  inside : arch.writer.pos ≤ arch.writer.bytes.length
  filePosition : arch.filePosition = arch.writer.pos
  region : Region K arch.header arch.cipher (4 + headerBytes.length) raws arch.index.block data
  blockFits : ∀ raw ∈ raws, raw.length ≤ arch.header.blockSize

theorem Positioned.pos_eq {arch : ArchiveWriter} {headerBytes : Bytes} (hp : Positioned K arch headerBytes data raws) :
    arch.writer.pos = 4 + headerBytes.length + data.length := by
  have := congrArg List.length hp.before
  rwa [List.length_take_of_le hp.inside, List.length_append, List.length_append, length_leBytes] at this

/-- **A run behind the blocks `raws` finishes an archive** with them and the chunks of its stream. -/
theorem Run.finished (hK : K.Lawful) {draws : Draws} {arch arch' : ArchiveWriter} {headerBytes : Bytes}
    {old : List FileEntry} {srcs : List Source} {processed : List ProcessedBlock}
    (hp : Positioned K arch headerBytes data raws)
    (hrun : Run K draws arch old raws.flatten.length arch.header.blockSize srcs processed arch')
    (hlt : ∀ b ∈ processed, b.processedData.length < 2 ^ 32) :
    ∃ im : Image K, Finished arch' im (raws ++ chunks arch.header.blockSize (Source.stream srcs)) ∧
      im.headerBytes = headerBytes ∧ im.data = data ++ processed.flatMap ProcessedBlock.processedData ∧
      arch'.index.files = old ++ Source.entries raws.flatten.length srcs ∧
      arch'.index.block = arch.index.block ++ blockEntries arch.filePosition processed := by
  obtain ⟨mid, hblocks, hfinal⟩ := hrun.written
  have happ := writeBlocks_ok hblocks
  have hwrote := happ.wrote hp.inside
  obtain ⟨sealedIndex, footer, w, hseal, rfl, _, hbytes⟩ := finalize_ok hfinal
  have hpos : mid.filePosition = mid.writer.pos := by
    rw [happ.filePosition, storedSize_eq hlt, hp.filePosition, hwrote.pos]
  have hinside := hwrote.inside hp.inside
  have hbefore : mid.writer.bytes.take mid.writer.pos
      = leBytes 4 (u32 headerBytes.length) ++ headerBytes ++
        (data ++ processed.flatMap ProcessedBlock.processedData) := by
    rw [hwrote.bytes, hwrote.pos, take_overwrite_end hp.inside, hp.before, List.append_assoc _ data]
  have hend : mid.filePosition
      = 4 + headerBytes.length + (data ++ processed.flatMap ProcessedBlock.processedData).length := by
    rw [hpos, hwrote.pos, hp.pos_eq, List.length_append, Nat.add_assoc]
  have hseals := spawnWorkers_seals hK hrun.workers
  rw [hp.region.length_block] at hseals
  have hregion : Region K mid.header mid.cipher (4 + headerBytes.length)
      (raws ++ chunks arch.header.blockSize (Source.stream srcs)) mid.index.block
      (data ++ processed.flatMap ProcessedBlock.processedData) := by
    rw [happ.block, happ.header, happ.cipher, hp.filePosition, hp.pos_eq]
    exact hp.region.append hseals hlt
  refine ⟨{
    header := mid.header
    cipher := mid.cipher
    index := (mid.closed (old ++ Source.entries raws.flatten.length srcs)
      (raws.flatten.length + (Source.stream srcs).length)).index
    headerBytes := headerBytes
    data := data ++ processed.flatMap ProcessedBlock.processedData
    sealedIndex := sealedIndex
    footer := footer
    headerVec := happ.header ▸ hp.headerVec
    sealedBy := ⟨mid.closed _ _, draws.indexNonce, rfl, rfl, rfl, hend, hseal⟩ }, {
    bytes := ?_
    index := rfl
    header := rfl
    cipher := rfl
    filePosition := hend
    version := happ.header ▸ hp.version
    magic := happ.header ▸ hp.magic
    region := hregion
    total := ?_
    blockFits := fun raw hraw => ?_ }, rfl, rfl, rfl, happ.block⟩
  · show w.bytes = _
    rw [hbytes hinside, finalize_bytes hinside hpos, hbefore]
    simp [Image.bytes, Image.lead]
  · show raws.flatten.length + (Source.stream srcs).length = _
    rw [List.flatten_append, List.length_append, flatten_chunks]
  · show raw.length ≤ mid.header.blockSize
    rw [happ.header]
    rcases List.mem_append.1 hraw with hraw | hraw
    · exact hp.blockFits raw hraw
    · exact length_chunks_le hrun.feedable hraw

/-- Blocks that leave room for the tag are stored with their lengths. -/
theorem Run.stored_lt (hK : K.Lawful) {draws : Draws} {arch arch' : ArchiveWriter} {old : List FileEntry}
    {pos bs : Nat} {srcs : List Source} {processed : List ProcessedBlock}
    (hrun : Run K draws arch old pos bs srcs processed arch') (hbs : bs + 16 < 2 ^ 32) :
    ∀ b ∈ processed, b.processedData.length < 2 ^ 32 := by
  refine length_lt_of_seals (spawnWorkers_seals hK hrun.workers) fun c hc => ?_
  have := length_chunks_le hrun.feedable hc
  omega

/-- A new archive is positioned behind its header. -/
theorem Positioned.new {faults : Nat → Option Nat} {h : Header} {prompts : Prompts} {confirm : Bool}
    {arch : ArchiveWriter} (hnew : ArchiveWriter.new K (some (Sink.create faults)) h prompts confirm = .ok arch)
    (hversion : h.version = VERSION) (hmagic : h.magic = MAGIC) :
    ∃ headerBytes, Positioned K arch headerBytes [] [] := by
  obtain ⟨headerBytes, hvec, _, rfl, hindex, hfile, hpos, hbytes⟩ := ArchiveWriter.new_ok hnew
  refine ⟨headerBytes, ⟨hvec, hversion, hmagic, ?_, Nat.le_of_eq hpos, hfile, ?_, by simp⟩⟩
  · rw [hpos, List.take_length, hbytes, List.append_nil]
  · rw [hindex]; exact Region.nil _ _ _

/-- What was written ends where the recorded sizes say that the file ends: no stored length was cut to 32 bits. -/
def ArchiveWriter.Recorded (arch : ArchiveWriter) : Prop := arch.writer.pos = arch.writer.bytes.length

theorem Run.recorded_lt {draws : Draws} {arch arch' : ArchiveWriter} {headerBytes : Bytes} {old : List FileEntry}
    {pos bs : Nat} {srcs : List Source} {processed : List ProcessedBlock} (hp : Positioned K arch headerBytes data raws)
    (hrun : Run K draws arch old pos bs srcs processed arch') (hrec : arch'.Recorded) :
    ∀ b ∈ processed, b.processedData.length < 2 ^ 32 := by
  obtain ⟨mid, hblocks, hfinal⟩ := hrun.written
  have happ := writeBlocks_ok hblocks
  have hwrote := happ.wrote hp.inside
  obtain ⟨sealedIndex, footer, w, _, rfl, hpos, hbytes⟩ := finalize_ok hfinal
  have hlen : w.pos = w.bytes.length := hrec
  rw [hbytes (hwrote.inside hp.inside), length_setLen, hpos, happ.filePosition, hwrote.pos, hp.filePosition] at hlen
  exact lt_of_storedSize_eq (by omega)

/-- A reopened archive is positioned behind its blocks. -/
theorem Finished.reopen {arch : ArchiveWriter} {im : Image K} (hf : Finished arch im raws) (hoff : im.footer.indexOffset
    = im.start + im.data.length) (faults : Nat → Option Nat) :
    Positioned K (FileStructs.reopen ⟨arch.header, arch.index, arch.cipher, im.footer⟩ arch.writer.bytes faults)
      im.headerBytes im.data raws where
  headerVec := by
    show K.headerToVec arch.header = _
    rw [hf.header]; exact im.headerVec
  version := hf.version
  magic := hf.magic
  before := by
    show arch.writer.bytes.take im.footer.indexOffset = _
    rw [hoff, hf.bytes, Image.bytes, List.append_assoc]
    exact List.take_left' (by simp)
  inside := by
    show im.footer.indexOffset ≤ arch.writer.bytes.length
    rw [hoff, hf.bytes, Image.length_bytes]
    omega
  filePosition := rfl
  region := hf.region
  blockFits := hf.blockFits

end Cryo
