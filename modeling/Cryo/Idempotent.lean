import Cryo.Representation
import Cryo.ScanTree

/-!
# Appending twice

An append drops the paths that the archive has, so what was appended is not appended again. This is about any bytes
that the loader accepts, as long as the index stands behind the header: what an append writes is loaded by the next one
(`Continued.reload`).

* `append_idempotent`: a second append of the same file or directory changes neither the index nor the data;
  `Chain.append_again` says so of histories.
-/

namespace Cryo

open Posix Bytes Chunk

variable {K : Crates}

/-! ## What a run writes -/

/-- **A run leaves the front of the file**, with the stored blocks, the sealed index and the footer behind it. -/
theorem Run.writes {draws : Draws} {arch arch' : ArchiveWriter} {old : List FileEntry} {pos bs : Nat}
    {srcs : List Source} {processed : List ProcessedBlock} (hrun : Run K draws arch old pos bs srcs processed arch')
    (hinside : arch.writer.pos ≤ arch.writer.bytes.length) (hfile : arch.filePosition = arch.writer.pos)
    (hlt : ∀ b ∈ processed, b.processedData.length < 2 ^ 32) :
    ∃ nonce sealedIndex footer, arch'.sealIndex K nonce = .ok (sealedIndex, footer) ∧
      arch'.writer.bytes = arch.writer.bytes.take arch.writer.pos ++ processed.flatMap ProcessedBlock.processedData ++
        sealedIndex ++ footer.serialize ∧
      arch'.filePosition = arch.writer.pos + (processed.flatMap ProcessedBlock.processedData).length := by
  obtain ⟨mid, hblocks, hfinal⟩ := hrun.written
  have happ := writeBlocks_ok hblocks
  have hwrote := happ.wrote hinside
  obtain ⟨sealedIndex, footer, w, hseal, rfl, _, hbytes⟩ := finalize_ok hfinal
  have hpos : mid.filePosition = mid.writer.pos := by
    rw [happ.filePosition, storedSize_eq hlt, hfile, hwrote.pos]
  have hmid := hwrote.inside hinside
  refine ⟨draws.indexNonce, sealedIndex, footer, hseal, ?_, hpos.trans hwrote.pos⟩
  show w.bytes = _
  rw [hbytes hmid, finalize_bytes hmid hpos, hwrote.bytes, hwrote.pos, take_overwrite_end hinside]
  simp only [List.append_assoc]

/-- The index of a loaded archive stands behind its header. -/
structure Behind (bytes : Bytes) (structs : FileStructs) : Prop where
  header : ∀ size, readAt bytes 0 4 = .ok size → 4 + leVal size ≤ structs.footer.indexOffset
  inside : structs.footer.indexOffset ≤ bytes.length

/-- **Every history** leaves such an archive, with distinct paths. -/
theorem Chain.behind (hK : K.Lawful) {arch : ArchiveWriter} (h : Chain K arch) (hfits : Unnarrowed K arch)
    {p : Path} {prompts : Prompts} {confirm : Bool} {structs : FileStructs}
    (hkey : Cipher.new K prompts arch.header confirm = .ok arch.cipher)
    (hload : retrieve K arch.writer.bytes p Limits.default prompts confirm = .ok structs) :
    Behind arch.writer.bytes structs ∧ (structs.index.files.map FileEntry.path).Nodup := by
  obtain ⟨im, raws, hf, hlayout, hend, _⟩ := h.layout hK (hfits.offset.trans (by decide))
  have hs := hf.sizes_of_retrieve hK hfits hload
  obtain rfl := Except.ok.inj ((hf.retrieve hK hs hkey p).symm.trans hload)
  have hbytes : arch.writer.bytes = [] ++ leBytes 4 (u32 im.headerBytes.length) ++
      (im.headerBytes ++ im.data ++ im.sealedIndex ++ im.footer.serialize) := by
    rw [hf.bytes]
    simp [Image.bytes, Image.lead]
  refine ⟨⟨fun size hsize => ?_, ?_⟩, hlayout.distinct⟩
  · have hfour : readAt arch.writer.bytes 0 4 = .ok (leBytes 4 (u32 im.headerBytes.length)) := by
      rw [hbytes]
      exact readAt_mid rfl (by simp)
    obtain rfl := Except.ok.inj (hfour.symm.trans hsize)
    have hle := u32_le im.headerBytes.length
    rw [leVal_leBytes (u32_lt _)]
    show _ ≤ im.footer.indexOffset
    rw [hend, Image.start]
    omega
  · show im.footer.indexOffset ≤ _
    rw [hend, hf.bytes, Image.length_bytes]
    omega

/-- An append to the loaded archive `structs` wrote `processed` for `srcs`. -/
structure Continued (structs : FileStructs) (bytes : Bytes) (srcs : List Source) (processed : List ProcessedBlock)
    (arch' : ArchiveWriter) : Prop where
  header : arch'.header = structs.header
  index : arch'.index = ⟨structs.index.files ++ Source.entries structs.index.totalStreamSize srcs,
    structs.index.block ++ blockEntries structs.footer.indexOffset processed,
    structs.index.totalStreamSize + (Source.stream srcs).length⟩
  none : srcs = [] → processed = []
  written : ∃ nonce sealedIndex footer, arch'.sealIndex K nonce = .ok (sealedIndex, footer) ∧
    arch'.writer.bytes = bytes.take structs.footer.indexOffset ++ processed.flatMap ProcessedBlock.processedData ++
      sealedIndex ++ footer.serialize ∧
    arch'.filePosition = structs.footer.indexOffset + (processed.flatMap ProcessedBlock.processedData).length

section

variable {setup : AppendSetup} {env : Env} {bytes : Bytes} {args : AppendArgs} {structs : FileStructs}
  {arch' : ArchiveWriter} {p : Path} {limits : Limits}

/-- **What an append writes**, and which sources it was given. -/
theorem appendFile_continued (hK : K.Lawful)
    (hload : retrieve K bytes args.archivePath Limits.default setup.prompts args.confirm = .ok structs)
    (hinside : structs.footer.indexOffset ≤ bytes.length) (h : appendFile K setup env bytes args = .ok arch') :
    ∃ root queue srcs processed, queueAppend setup structs.index.files args.fileToAppend = .ok (root, queue) ∧
      List.Forall₂ (fun p src => observe env.os root structs.header.blockSize p = .ok src) queue srcs ∧
      Continued (K := K) structs bytes srcs processed arch' := by
  obtain ⟨structs', root, queue, srcs, processed, hload', hqueue, hobs, hrun⟩ := appendFile_ok h
  obtain rfl : structs = structs' := Except.ok.inj (hload.symm.trans hload')
  have hsmall : structs.header.blockSize + 16 < 2 ^ 32 := by
    obtain ⟨_, _, _, _, _, _, _, hblock, _⟩ := retrieveHeader_ok.1 (retrieve_ok.1 hload).1
    have hdefault : Limits.default.effMaxBlock + 16 < 2 ^ 32 := by decide
    omega
  refine ⟨root, queue, srcs, processed, hqueue, hobs, hrun.same.1, hrun.index_eq, ?_,
    hrun.writes hinside rfl (hrun.stored_lt hK hsmall)⟩
  rintro rfl
  have hworkers := hrun.workers
  rw [Source.stream_nil, chunks_nil] at hworkers
  exact (Except.ok.inj hworkers).symm

/-! ## Loading what was written -/

/-- A file is read alike where it begins alike. -/
theorem readAt_front {front rest rest' : Bytes} {off len : Nat} (h : off + len ≤ front.length) :
    readAt (front ++ rest) off len = readAt (front ++ rest') off len := by
  have hin : ∀ more : Bytes, off + len ≤ (front ++ more).length := fun more => by
    rw [List.length_append]
    omega
  unfold readAt
  rw [if_pos (.inr (hin rest)), if_pos (.inr (hin rest')), slice_append_left h, slice_append_left h]

/-- The header is read from the front. -/
theorem retrieveHeader_front_of {front rest rest' : Bytes} {h : Header} {p p' : Path} {limits : Limits}
    (hfront : ∀ size, readAt (front ++ rest) 0 4 = .ok size → 4 + leVal size ≤ front.length)
    (hread : retrieveHeader K (front ++ rest) p limits = .ok h) :
    retrieveHeader K (front ++ rest') p' limits = .ok h := by
  obtain ⟨size, headerBytes, hsize, hlimit, hbytes, hmore⟩ := retrieveHeader_ok.1 hread
  have hin := hfront size hsize
  exact retrieveHeader_ok.2 ⟨size, headerBytes, (readAt_front (by omega)).trans hsize, hlimit,
    (readAt_front (by omega)).trans hbytes, hmore⟩

end

variable (K) in
/-- **What was cut is not taken for something else.** An encoding of an index does not begin with another, and data is
not decompressed into less room than it has. -/
structure Crates.Strict : Prop where
  index : ∀ {i j b rest}, K.indexToVec i = some (b ++ rest) → K.indexFromSlice b = some j → rest = []
  zstd : ∀ {l d c}, K.zstdCompress l d = some c → ∀ {n}, n < d.length → K.zstdDecompress c n = none

variable (K) in
/-- Where the stored length of the sealed index was cut to its field, what is left of the index does not open. Only this
one part of one ciphertext is meant; without a cut nothing is asked. -/
def CutRefused (arch : ArchiveWriter) : Prop :=
  2 ^ 32 ≤ arch.indexSize → arch.cipher ≠ .none → ∀ footer m, arch.footer = .ok footer →
    decryptBlock K (.index footer.indexNonce) arch.cipher arch.header
      (slice footer.indexOffset footer.indexSizeStored arch.writer.bytes) 0 ≠ .ok m

section

variable {arch : ArchiveWriter} {nonce : Nonce} {sealedIndex front rest : Bytes} {footer : Footer} {p : Path}

/-- What a limit lets through is all that was decoded. -/
theorem eq_of_takeLimited {d d' : Bytes} {n : Nat} (h : takeLimited (d, true) n = .ok d') : d' = d := by
  by_cases hn : d.length ≤ n
  · exact Except.ok.inj (h.symm.trans (takeLimited_ok hn))
  · have hlong : (d.take (n + 1)).length > n := by rw [List.length_take]; omega
    unfold takeLimited at h
    simp only [Bool.true_eq_false, and_false, if_false, if_pos hlong] at h
    cases h

/-- What is decompressed at all is what was compressed. -/
theorem decompress_strict (hK : K.Lawful) (hstrict : K.Strict) {e : CompressingEngine K} {d c d' : Bytes}
    (h : e.compress d = .ok c) {n : Nat} (h' : DecompressingEngine.decompress K ⟨e.engine⟩ c n = .ok d') : d' = d := by
  obtain ⟨engine, level, hl⟩ := e
  cases engine with
  | zstd =>
    have h' := elim_ok h'
    by_cases hn : d.length ≤ n
    · exact Option.some.inj (h'.symm.trans (hK.zstd (elim_ok h) hn))
    · cases (hstrict.zstd (elim_ok h) (Nat.not_le.1 hn)).symm.trans h'
  | xz =>
    simp only [DecompressingEngine.decompress, hK.xz (encoded_ok h)] at h'
    exact eq_of_takeLimited h'
  | deflate =>
    simp only [DecompressingEngine.decompress, hK.deflate (encoded_ok h)] at h'
    exact eq_of_takeLimited h'
  | none =>
    cases h
    exact (Except.ok.inj h').symm

/-- **The front of a sealed message opens** to the message if it is all of it, or there is no cipher and it is the front
of the message. -/
theorem decryptBlock_front (hK : K.Lawful) {i : Nat} {m m' c rest : Bytes} {encd : EncryptedData} {h : Header}
    {cipher : Cipher} (hc : encryptBlock K i m encd h.archiveId cipher = .ok (c ++ rest))
    (hopen : decryptBlock K encd cipher h c i = .ok m') (hall : cipher ≠ .none → rest = []) :
    rest = [] ∧ m' = m ∨ cipher = .none ∧ m = m' ++ rest := by
  by_cases hnone : cipher = .none
  · subst hnone
    exact .inr ⟨rfl, (Except.ok.inj hc).trans (by rw [Except.ok.inj hopen])⟩
  · have hrest := hall hnone
    rw [hrest, List.append_nil] at hc
    exact .inl ⟨hrest, Except.ok.inj (hopen.symm.trans (decryptBlock_encryptBlock hK hc))⟩

/-- What is read where a sealed index was written is its front, all of it unless its length was narrowed. -/
theorem readAt_sealed (hseal : arch.sealIndex K nonce = .ok (sealedIndex, footer))
    (hfront : front.length = arch.filePosition) {stored : Bytes}
    (hread : readAt (front ++ sealedIndex ++ rest) footer.indexOffset footer.indexSizeStored = .ok stored) :
    stored = sealedIndex.take footer.indexSizeStored := by
  obtain ⟨hoffset, hsize, _⟩ := footer_of_sealIndex hseal
  have hmid := readAt_mid (a := front) (b := sealedIndex.take (u32 sealedIndex.length))
    (c := sealedIndex.drop (u32 sealedIndex.length) ++ rest) (hoffset.trans hfront.symm)
    (hsize.trans (List.length_take_of_le (u32_le _)).symm)
  have hsplit : front ++ sealedIndex.take (u32 sealedIndex.length) ++
      (sealedIndex.drop (u32 sealedIndex.length) ++ rest) = front ++ sealedIndex ++ rest := by
    rw [List.append_assoc front, ← List.append_assoc (List.take _ _), List.take_append_drop, List.append_assoc]
  rw [hsplit] at hmid
  rw [hsize]
  exact Except.ok.inj (hread.symm.trans hmid)

/-- **An index that is loaded from where it was written** is the index that was written. -/
theorem retrieveIndex_strict (hK : K.Lawful) (hstrict : K.Strict)
    (hseal : arch.sealIndex K nonce = .ok (sealedIndex, footer)) (hfront : front.length = arch.filePosition)
    (hcut : 2 ^ 32 ≤ sealedIndex.length → arch.cipher ≠ .none → ∀ m, decryptBlock K (.index footer.indexNonce)
      arch.cipher arch.header (sealedIndex.take footer.indexSizeStored) 0 ≠ .ok m) {index : Index}
    (h : retrieveIndex K (front ++ sealedIndex ++ rest) p arch.header footer arch.cipher = .ok index) :
    index = arch.index := by
  obtain ⟨_, _, h⟩ := Except.bind_eq_ok.1 h
  obtain ⟨stored, hread, h⟩ := Except.bind_eq_ok.1 h
  obtain ⟨opened, hopen, h⟩ := Except.bind_eq_ok.1 h
  obtain ⟨indexBytes, hunpack, h⟩ := Except.bind_eq_ok.1 h
  have hstored := readAt_sealed hseal hfront (ioFailed_ok.1 hread)
  have hparts : stored ++ sealedIndex.drop (u32 sealedIndex.length) = sealedIndex := by
    rw [hstored, (footer_of_sealIndex hseal).2.1, List.take_append_drop]
  -- how it was sealed
  obtain ⟨ib, hib, hseal⟩ := Except.bind_eq_ok.1 hseal
  obtain ⟨engine, heng, hseal⟩ := Except.bind_eq_ok.1 hseal
  obtain ⟨c, hcomp, hseal⟩ := Except.bind_eq_ok.1 hseal
  obtain ⟨e, henc, hseal⟩ := Except.bind_eq_ok.1 hseal
  obtain ⟨he, hf⟩ := Prod.mk.inj (Except.ok.inj hseal)
  have hib := elim_ok hib
  rw [openStored_eq] at hopen
  have hall : arch.cipher ≠ .none → sealedIndex.drop (u32 sealedIndex.length) = [] := by
    intro hne
    by_cases hlong : 2 ^ 32 ≤ sealedIndex.length
    · rw [hstored] at hopen
      exact absurd hopen (hcut hlong hne opened)
    · rw [u32_of_lt (Nat.not_le.1 hlong), List.drop_length]
  rw [he, ArchiveWriter.encryptBlock_index K arch _ nonce 0, ← hparts] at henc
  rw [← hf] at hopen
  have hopened := decryptBlock_front hK henc hopen hall
  have hdecode : K.indexFromSlice indexBytes = some index := by
    cases hslice : K.indexFromSlice indexBytes with
    | none => rw [hslice] at h; cases h
    | some i => rw [hslice] at h; exact congrArg some (Except.ok.inj h)
  suffices heq : indexBytes = ib from Option.some.inj ((hdecode.symm.trans (heq ▸ hK.index hib)))
  unfold unpackIndex at hunpack
  by_cases hsmall : u32 ib.length > c.length
  · rw [if_pos hsmall] at hopened hf
    have hc : opened = c := by
      rcases hopened with ⟨_, hc⟩ | ⟨hnone, hc⟩
      · exact hc
      · -- without a cipher the compressed index is stored, and it is short
        have hstored : opened = stored := by
          rw [hnone] at hopen
          exact (Except.ok.inj hopen).symm
        have hlong : sealedIndex.length < 2 ^ 32 := by
          rw [← hparts, ← hstored, ← hc]
          exact hsmall.trans (u32_lt _)
        rw [u32_of_lt hlong, List.drop_length, List.append_nil] at hc
        exact hc.symm
    rw [← hf, if_pos rfl] at hunpack
    obtain ⟨_, hnew, hunpack⟩ := Except.bind_eq_ok.1 hunpack
    obtain rfl := Except.ok.inj (hnew.symm.trans (DecompressingEngine.new_of_compressing heng))
    rw [hc, ← (CompressingEngine.new_ok heng).1] at hunpack
    exact decompress_strict hK hstrict hcomp hunpack
  · rw [if_neg hsmall] at hopened hf
    rw [← hf, if_neg Bool.false_ne_true] at hunpack
    obtain rfl := Except.ok.inj hunpack
    rcases hopened with ⟨_, hopened⟩ | ⟨_, hopened⟩
    · exact hopened
    · have hrest := hstrict.index (hib.trans (congrArg some hopened)) hdecode
      rw [hrest, List.append_nil] at hopened
      exact hopened.symm

end

/-- **The next append loads what this one wrote.** -/
theorem Continued.reload (hK : K.Lawful) (hstrict : K.Strict) {structs structs' : FileStructs} {bytes : Bytes}
    {srcs : List Source} {processed : List ProcessedBlock} {arch' : ArchiveWriter} {p p' : Path} {limits : Limits}
    {prompts prompts' : Prompts} {confirm confirm' : Bool} (h : Continued (K := K) structs bytes srcs processed arch')
    (hbehind : Behind bytes structs) (hload : retrieve K bytes p limits prompts confirm = .ok structs)
    (hoff : arch'.filePosition < 2 ^ 64) (hcut : CutRefused K arch')
    (hkey : Cipher.new K prompts' arch'.header confirm' = .ok arch'.cipher)
    (hload' : retrieve K arch'.writer.bytes p' limits prompts' confirm' = .ok structs') :
    structs'.header = arch'.header ∧ structs'.index = arch'.index ∧ structs'.footer.indexOffset = arch'.filePosition ∧
      structs'.footer.indexOffset ≤ arch'.writer.bytes.length := by
  obtain ⟨nonce, sealedIndex, footer, hseal, hbytes, hposition⟩ := h.written
  obtain ⟨hheader, hfooter, hcipher, hindex⟩ := retrieve_ok.1 hload'
  obtain ⟨hold, _⟩ := retrieve_ok.1 hload
  obtain ⟨hoffset, hstored, _, _, hplain⟩ := footer_of_sealIndex hseal
  have htake : (bytes.take structs.footer.indexOffset).length = structs.footer.indexOffset :=
    List.length_take_of_le hbehind.inside
  rw [hbytes] at hheader hfooter hindex
  -- the header stands in front of the blocks
  have hfront : structs'.header = arch'.header := by
    rw [← List.take_append_drop structs.footer.indexOffset bytes] at hold
    have hsame : retrieveHeader K (bytes.take structs.footer.indexOffset ++ (processed.flatMap
        ProcessedBlock.processedData ++ (sealedIndex ++ footer.serialize))) p' limits = .ok structs.header :=
      retrieveHeader_front_of (fun size hsize => by
        rw [List.take_append_drop] at hsize
        rw [htake]
        exact hbehind.header size hsize) hold
    rw [List.append_assoc, List.append_assoc] at hheader
    rw [h.header]
    exact Except.ok.inj (hheader.symm.trans hsame)
  -- the footer stands at the end
  have hfits : footer.Fits := ⟨hoffset ▸ hoff, hstored ▸ u32_lt _, hplain ▸ u32_lt _⟩
  rw [retrieveFooter_end_eq _ hfits] at hfooter
  obtain ⟨_, _, hfooter⟩ := Except.bind_eq_ok.1 hfooter
  obtain ⟨_, _, hfooter⟩ := Except.bind_eq_ok.1 hfooter
  obtain rfl : footer = structs'.footer := Except.ok.inj hfooter
  rw [hfront] at hcipher hindex
  rw [← Except.ok.inj (hkey.symm.trans hcipher)] at hindex
  have hdata : (bytes.take structs.footer.indexOffset ++ processed.flatMap ProcessedBlock.processedData).length =
      arch'.filePosition := by rw [List.length_append, htake, hposition]
  -- where the index was cut it does not open
  have hrefused : 2 ^ 32 ≤ sealedIndex.length → arch'.cipher ≠ .none → ∀ m, decryptBlock K
      (.index structs'.footer.indexNonce) arch'.cipher arch'.header
      (sealedIndex.take structs'.footer.indexSizeStored) 0 ≠ .ok m := by
    intro hlong hne m
    have hsize : arch'.indexSize = sealedIndex.length := by
      unfold ArchiveWriter.indexSize
      rw [hbytes, List.length_append, List.length_append, hdata, Footer.length_serialize]
      omega
    have hend : arch'.footer = .ok structs'.footer := ArchiveWriter.footer_of_end hbytes hfits
    have hslice : slice structs'.footer.indexOffset structs'.footer.indexSizeStored arch'.writer.bytes =
        sealedIndex.take structs'.footer.indexSizeStored := by
      rw [hbytes, ← List.take_append_drop structs'.footer.indexSizeStored sealedIndex, ← List.append_assoc,
        List.append_assoc (_ ++ sealedIndex.take _)]
      refine (slice_mid_of_eq (hoffset.trans hdata.symm) ?_).trans ?_
      · rw [List.length_take_of_le (hstored ▸ u32_le _)]
      · rw [List.take_append_drop]
    rw [← hslice]
    exact hcut (hsize ▸ hlong) hne _ m hend
  refine ⟨hfront, retrieveIndex_strict hK hstrict hseal hdata hrefused hindex, hoffset, ?_⟩
  · rw [hoffset, hposition, hbytes]
    simp only [List.length_append, htake]
    omega

/-! ## What is appended -/

/-- What an append sees at a path: a tree below a directory, or nothing but the path itself. -/
inductive Shows (setup : AppendSetup) (P : Path) : Option FsTree → Prop
  | file : setup.isDir P = false → Shows setup P none
  | dir {t : FsTree} {dirs : Dirs} : setup.isDir P = true → t.Shown P dirs →
    (∀ files, setup.retrieveAllFiles P = .ok files → Finds dirs P files) → Shows setup P (some t)

/-- The paths that an append is to add: everything below a directory but special files, or the file itself. -/
def Wanted (P : Path) : Option FsTree → Path → Prop
  | none, q => q = P
  | some t, q => t.Holds P q

/-- The root of the names. -/
def appendRoot (P : Path) : Option FsTree → Path
  | none => P.parent.getD P
  | some _ => P

section

variable {setup : AppendSetup} {files : List FileEntry} {P root : Path} {x : Option FsTree} {queue : List Path}

/-- **What an append retains**, of the paths that it is to add. -/
theorem queueAppend_shows (hshows : Shows setup P x) (h : queueAppend setup files P = .ok (root, queue)) :
    ∃ paths, root = appendRoot P x ∧ queue = retainNew (appendRoot P x) (files.map FileEntry.path) paths ∧
      ∀ q, q ∈ paths ↔ Wanted P x q := by
  unfold queueAppend at h
  cases hshows with
  | file hdir =>
    rw [if_neg (by simp [hdir])] at h
    cases h
    exact ⟨[P], rfl, rfl, fun q => List.mem_singleton⟩
  | dir hdir hshown hfinds =>
    rw [if_pos hdir] at h
    obtain ⟨paths, hpaths, h⟩ := Except.bind_eq_ok.1 h
    cases h
    exact ⟨paths, rfl, rfl, (hshown.found (hfinds paths hpaths)).1⟩

end

section

variable {os : Os} {root : Path} {bs : Nat}

/-- **Every path is there afterwards**, because it was before or because it is retained. -/
theorem retainNew_covers {paths seen : List Path} {srcs : List Source}
    (hobs : List.Forall₂ (fun p src => observe os root bs p = .ok src) (retainNew root seen paths) srcs) :
    ∀ p ∈ paths, ∃ rel ∈ seen ++ srcs.map Source.path, p.stripPrefix root = some rel := by
  intro p hp
  by_cases hkept : p ∈ retainNew root seen paths
  · obtain ⟨src, hsrc, hobserve⟩ := hobs.exists_of_mem hkept
    exact ⟨src.path, List.mem_append_right _ (List.mem_map_of_mem hsrc), (observe_ok hobserve).2.1⟩
  · rw [mem_retainNew] at hkept
    push Not at hkept
    obtain ⟨rel, hstrip, hseen⟩ := hkept hp
    exact ⟨rel, List.mem_append_left _ hseen, hstrip⟩

/-- Nothing is retained of what is there. -/
theorem retainNew_eq_nil {paths seen : List Path} (h : ∀ p ∈ paths, ∃ rel ∈ seen, p.stripPrefix root = some rel) :
    retainNew root seen paths = [] := by
  refine List.eq_nil_iff_forall_not_mem.2 fun p hp => ?_
  obtain ⟨hmem, hnew⟩ := mem_retainNew.1 hp
  obtain ⟨rel, hseen, hstrip⟩ := h p hmem
  exact hnew rel hstrip hseen

end

/-! ## Twice -/

/-- Without a cut there is nothing to refuse. -/
theorem Unnarrowed.cutRefused {arch : ArchiveWriter} (h : Unnarrowed K arch) : CutRefused K arch :=
  fun hlong => absurd h.stored (Nat.not_lt.2 hlong)

section

variable {setup : AppendSetup} {env : Env} {bytes : Bytes} {args : AppendArgs} {structs : FileStructs}
  {arch' : ArchiveWriter} {x : Option FsTree}

/-- **An append adds what is not there**: the paths stay distinct, and all that it is to add has its path. -/
theorem appendFile_covers (hK : K.Lawful)
    (hload : retrieve K bytes args.archivePath Limits.default setup.prompts args.confirm = .ok structs)
    (hbehind : Behind bytes structs) (hdistinct : (structs.index.files.map FileEntry.path).Nodup)
    (hshows : Shows setup args.fileToAppend x) (h : appendFile K setup env bytes args = .ok arch') :
    (∃ srcs processed, Continued (K := K) structs bytes srcs processed arch') ∧
    (arch'.index.files.map FileEntry.path).Nodup ∧
    ∀ q, Wanted args.fileToAppend x q → ∃ rel ∈ arch'.index.files.map FileEntry.path,
      q.stripPrefix (appendRoot args.fileToAppend x) = some rel := by
  obtain ⟨root, queue, srcs, processed, hqueue, hobs, hcont⟩ := appendFile_continued hK hload hbehind.inside h
  obtain ⟨paths, rfl, rfl, hpaths⟩ := queueAppend_shows hshows hqueue
  have hfiles : arch'.index.files.map FileEntry.path =
      structs.index.files.map FileEntry.path ++ srcs.map Source.path := by
    rw [hcont.index, List.map_append, Source.paths_entries]
  obtain ⟨hnodup, hnew⟩ := retainNew_nodup hobs
  rw [hfiles]
  exact ⟨⟨srcs, processed, hcont⟩,
    List.nodup_append.2 ⟨hdistinct, hnodup, fun q hq q' hq' heq => hnew q' hq' (heq ▸ hq)⟩,
    fun q hq => retainNew_covers hobs q ((hpaths q).2 hq)⟩

/-- **Where all is there, an append keeps the index and the data.** -/
theorem Continued.again (hK : K.Lawful) (hstrict : K.Strict) {p : Path} {prompts : Prompts} {confirm : Bool}
    {srcs : List Source} {processed : List ProcessedBlock}
    (hcont : Continued (K := K) structs bytes srcs processed arch') (hbehind : Behind bytes structs)
    (hload : retrieve K bytes p Limits.default prompts confirm = .ok structs) (hoff : arch'.filePosition < 2 ^ 64)
    (hcut : CutRefused K arch') {P : Path}
    (hcovers : ∀ q, Wanted P x q → ∃ rel ∈ arch'.index.files.map FileEntry.path,
      q.stripPrefix (appendRoot P x) = some rel) (hsame : args.fileToAppend = P) (hshows : Shows setup P x)
    (hkey : Cipher.new K setup.prompts arch'.header args.confirm = .ok arch'.cipher) {arch'' : ArchiveWriter}
    (h : appendFile K setup env arch'.writer.bytes args = .ok arch'') :
    arch''.index = arch'.index ∧ arch''.filePosition = arch'.filePosition ∧
      arch''.writer.bytes.take arch''.filePosition = arch'.writer.bytes.take arch'.filePosition := by
  obtain ⟨structs', hload', _⟩ := Except.bind_eq_ok.1 h
  have hload' := Except.mapError_eq_ok.1 hload'
  obtain ⟨_, hindex, hposition, hinside⟩ := hcont.reload hK hstrict hbehind hload hoff hcut hkey hload'
  obtain ⟨root, queue, srcs', processed', hqueue, hobs, hcont'⟩ := appendFile_continued hK hload' hinside h
  rw [hsame] at hqueue
  obtain ⟨paths, rfl, rfl, hpaths⟩ := queueAppend_shows hshows hqueue
  -- nothing is new
  rw [retainNew_eq_nil fun q hq => by rw [hindex]; exact hcovers q ((hpaths q).1 hq)] at hobs
  cases hobs
  obtain rfl := hcont'.none rfl
  obtain ⟨_, _, _, _, hbytes, hend⟩ := hcont'.written
  rw [List.flatMap_nil, List.append_nil, hposition] at hbytes
  rw [List.flatMap_nil, List.length_nil, Nat.add_zero, hposition] at hend
  refine ⟨?_, hend, ?_⟩
  · rw [hcont'.index, hindex]
    simp [Source.entries, blockEntries]
  · rw [hend, hbytes, List.append_assoc, List.take_append_of_le_length, List.take_take, Nat.min_self]
    rw [List.length_take]
    omega

/-- **In a history** an append of what was just appended keeps the index and the data. -/
theorem Chain.append_again (hK : K.Lawful) (hstrict : K.Strict) {arch : ArchiveWriter} (h : Chain K arch)
    (hfits : Unnarrowed K arch) (hkey : Cipher.new K setup.prompts arch.header args.confirm = .ok arch.cipher)
    (happ : appendFile K setup env arch.writer.bytes args = .ok arch') (hshows : Shows setup args.fileToAppend x)
    (hfits' : Unnarrowed K arch') {setup' : AppendSetup} {env' : Env} {args' : AppendArgs} {arch'' : ArchiveWriter}
    (hsame : args'.fileToAppend = args.fileToAppend) (hshows' : Shows setup' args.fileToAppend x)
    (hkey' : Cipher.new K setup'.prompts arch'.header args'.confirm = .ok arch'.cipher)
    (happ' : appendFile K setup' env' arch'.writer.bytes args' = .ok arch'') :
    arch''.index = arch'.index ∧ arch''.filePosition = arch'.filePosition ∧
      arch''.writer.bytes.take arch''.filePosition = arch'.writer.bytes.take arch'.filePosition := by
  obtain ⟨structs, hload, _⟩ := Except.bind_eq_ok.1 happ
  have hload := Except.mapError_eq_ok.1 hload
  obtain ⟨hbehind, hdistinct⟩ := h.behind hK hfits hkey hload
  obtain ⟨⟨srcs, processed, hcont⟩, _, hcovers⟩ := appendFile_covers hK hload hbehind hdistinct hshows happ
  exact hcont.again hK hstrict hbehind hload (hfits'.offset.trans (by decide)) hfits'.cutRefused hcovers hsame hshows'
    hkey' happ'

/-- **Appending is idempotent on the index.** An append of a file or a directory keeps the paths distinct and adds what
is not there. Another append of it, while it does not change, keeps the index and all that stands before it. -/
theorem append_idempotent (hK : K.Lawful) (hstrict : K.Strict)
    (hload : retrieve K bytes args.archivePath Limits.default setup.prompts args.confirm = .ok structs)
    (hbehind : Behind bytes structs) (hdistinct : (structs.index.files.map FileEntry.path).Nodup)
    (hshows : Shows setup args.fileToAppend x) (h : appendFile K setup env bytes args = .ok arch')
    (hoff : arch'.filePosition < 2 ^ 64) (hcut : CutRefused K arch') :
    (arch'.index.files.map FileEntry.path).Nodup ∧
    (∀ q, Wanted args.fileToAppend x q → ∃ rel ∈ arch'.index.files.map FileEntry.path,
      q.stripPrefix (appendRoot args.fileToAppend x) = some rel) ∧
    ∀ (setup' : AppendSetup) (env' : Env) (args' : AppendArgs) (arch'' : ArchiveWriter),
      args'.fileToAppend = args.fileToAppend → Shows setup' args.fileToAppend x →
      Cipher.new K setup'.prompts arch'.header args'.confirm = .ok arch'.cipher →
      appendFile K setup' env' arch'.writer.bytes args' = .ok arch'' →
      arch''.index = arch'.index ∧ arch''.filePosition = arch'.filePosition ∧
        arch''.writer.bytes.take arch''.filePosition = arch'.writer.bytes.take arch'.filePosition := by
  obtain ⟨⟨srcs, processed, hcont⟩, hnodup, hcovers⟩ := appendFile_covers hK hload hbehind hdistinct hshows h
  exact ⟨hnodup, hcovers, fun setup' env' args' arch'' hsame hshows' hkey h' =>
    hcont.again hK hstrict hbehind hload hoff hcut hcovers hsame hshows' hkey h'⟩

end

/-- Crates that store, with an end mark behind the place of an index. -/
def Crates.delimited (headers : List Header) (indexes : List Index) : Crates :=
  { Crates.tabled headers indexes with
    zstdDecompress := fun c n => if c.length ≤ n then some c else none
    indexToVec := fun x => (indexes.findIdx? (· = x)).map fun i => List.replicate i 0 ++ [1]
    indexFromSlice := fun b => if b = List.replicate (b.length - 1) 0 ++ [1] then indexes[b.length - 1]? else none }

theorem Crates.delimited_lawful (headers : List Header) (indexes : List Index) : (delimited headers indexes).Lawful where
  __ := tabled_lawful headers indexes
  zstd h _ hn := by cases h; exact if_pos hn
  index {i b} h := by
    obtain ⟨n, hn, rfl⟩ := Option.map_eq_some_iff.1 h
    have hget := getElem?_of_findIdx? (b := List.replicate n 0) (Option.map_eq_some_iff.2 ⟨n, hn, rfl⟩)
    rw [List.length_replicate] at hget
    simp [delimited, hget]

theorem Crates.delimited_strict (headers : List Header) (indexes : List Index) : (delimited headers indexes).Strict where
  zstd h _ hn := by cases h; exact if_neg (Nat.not_le.2 hn)
  index {i j b rest} h hcut := by
    obtain ⟨n, _, hb⟩ := Option.map_eq_some_iff.1 h
    have hmark : b = List.replicate (b.length - 1) 0 ++ [1] := by
      by_contra hne
      simp [delimited, hne] at hcut
    -- the mark is the last byte
    rcases List.eq_nil_or_concat' rest with rfl | ⟨rest', y, rfl⟩
    · rfl
    · rw [← List.append_assoc] at hb
      have hzeros := (List.append_inj' hb rfl).1
      have hone : (1 : UInt8) ∈ List.replicate n (0 : UInt8) := by
        rw [hzeros, hmark]
        simp
      cases List.eq_of_mem_replicate hone

/-- The directory `src` with the files `a` and `b`. -/
def nodesAB : List (List String × TreeNode) := [([], .dir), (["b"], .file), (["a"], .file)]

/-- **A tree is added to an archive that has a part of it**, and adding it again changes nothing. -/
theorem append_idempotent_tree :
    let K := Crates.delimited [Header.stored 2] [indexOfA, indexOfAB]
    let env := Env.plain (twoFiles 3 [1, 2, 3] 2 [4, 5])
    let footer : Footer := ⟨7, 1, 1, false, Vector.replicate 12 0⟩
    ∃ arch' arch'' : ArchiveWriter,
      appendFile K (.plain pathsAB) env ([0, 0, 0, 0] ++ [1, 2, 3] ++ [1] ++ footer.serialize) .plain = .ok arch' ∧
      appendFile K (.plain pathsAB) env arch'.writer.bytes .plain = .ok arch'' ∧
      arch'.index = indexOfAB ∧ arch''.index = arch'.index := by
  intro K env footer
  obtain ⟨arch', h, hshown⟩ := Except.exists_of_toOption_map (f := ArchiveWriter.shown)
    (x := appendFile K (.plain pathsAB) env ([0, 0, 0, 0] ++ [1, 2, 3] ++ [1] ++ footer.serialize) .plain)
    (b := ([0, 0, 0, 0] ++ [1, 2, 3, 4, 5] ++ [0, 1] ++
      Footer.serialize ⟨9, 2, 2, false, Vector.replicate 12 0⟩, indexOfAB, 9, Header.stored 2, .none))
    (by decide +kernel)
  unfold ArchiveWriter.shown at hshown
  simp only [Prod.mk.injEq] at hshown
  obtain ⟨hbytes, hindex, hposition, hheader, hcipher⟩ := hshown
  obtain ⟨arch'', h', _⟩ := Except.exists_of_toOption_map (f := fun _ => ()) (b := ())
    (x := appendFile K (.plain pathsAB) env arch'.writer.bytes .plain) (by rw [hbytes]; decide +kernel)
  obtain ⟨structs, hload, hstructs⟩ := Except.exists_of_toOption_map
    (f := fun structs : FileStructs => (structs.index, structs.footer.indexOffset)) (b := (indexOfA, 7))
    (x := retrieve K ([0, 0, 0, 0] ++ [1, 2, 3] ++ [1] ++ footer.serialize) AppendArgs.plain.archivePath Limits.default
      (AppendSetup.plain pathsAB).prompts false) (by decide +kernel)
  obtain ⟨hold, hoffset⟩ := Prod.mk.inj hstructs
  have hbehind : Behind ([0, 0, 0, 0] ++ [1, 2, 3] ++ [1] ++ footer.serialize) structs := by
    refine ⟨fun size hsize => ?_, by rw [hoffset]; decide +kernel⟩
    obtain rfl : [0, 0, 0, 0] = size := Except.ok.inj hsize
    rw [hoffset]
    decide +kernel
  have hshows : Shows (.plain pathsAB) AppendArgs.plain.fileToAppend
      (some (.ofList nodesAB (by decide) (by decide))) :=
    .dir rfl (shown_ofList (by decide) (by decide) (by decide)) fun files hfiles => by
      cases hfiles
      exact ⟨1, by decide +kernel⟩
  have hall := (append_idempotent (Crates.delimited_lawful _ _) (Crates.delimited_strict _ _) hload hbehind
    (by rw [hold]; decide +kernel) hshows h (by rw [hposition]; decide) fun _ hne => absurd hcipher hne).2.2 _ env .plain
    arch'' rfl hshows (by rw [hheader, hcipher]; rfl) h'
  exact ⟨arch', arch'', h, h', hindex, hall.1⟩

end Cryo
