import Cryo.Archive

/-!
# Histories of an archive

An archive comes about by a compression and any number of appends (`Made`). However many there were, its file is an
image that holds the raw blocks of all runs one after another (`Made.finished`), and as long as no file changed while
it was read, every entry lies in their concatenation (`Made.inside`).

* `append_preserves`: an append keeps the entries and the stored bytes, the old entries decode to what they did, and
  the new ones to the bytes that were read.
-/

namespace Cryo

open Posix Bytes Chunk

variable {K : Crates}

/-! ## One run -/

/-- **A compression finishes an archive** of the chunks of its stream. -/
theorem initializeCompression_finished (hK : K.Lawful) {setup : Setup} {env : Env} {args : CompressArgs}
    {arch' : ArchiveWriter} (h : initializeCompression K setup env args = .ok arch')
    (hsize : arch'.header.blockSize + 16 < 2 ^ 32 ∨ arch'.Recorded) :
    ∃ (im : Image K) (root : Path) (queue : List Path) (srcs : List Source),
      queueFiles setup args.pathToCompress args.recursive = .ok (root, queue) ∧
      List.Forall₂ (fun p src => observe env.os root args.bs p = .ok src) queue srcs ∧
      Finished arch' im (chunks args.bs (Source.stream srcs)) ∧ arch'.header.blockSize = args.bs ∧
      arch'.index.files = Source.entries 0 srcs ∧
      DecompressingEngine.new K arch'.header.compression = .ok ⟨arch'.header.compression⟩ := by
  obtain ⟨engine, root, queue, faults, arch, srcs, processed, hengine, hqueue, hnew, hobs, hrun⟩ :=
    initializeCompression_ok h
  obtain ⟨headerBytes, hp⟩ := Positioned.new hnew rfl rfl
  obtain ⟨_, _, _, hheader, _⟩ := ArchiveWriter.new_ok hnew
  have hbs : arch.header.blockSize = args.bs := by rw [hheader]; rfl
  have hcompression : arch.header.compression = args.compression := by rw [hheader]; rfl
  have hlt : ∀ b ∈ processed, b.processedData.length < 2 ^ 32 := by
    rcases hsize with hsize | hrec
    · rw [hrun.same.1, hbs] at hsize
      exact hrun.stored_lt hK hsize
    · exact hrun.recorded_lt hp hrec
  rw [← hbs] at hrun
  obtain ⟨im, hfin, _, _, hfiles, _⟩ := hrun.finished hK hp hlt
  rw [hbs, List.nil_append] at hfin
  refine ⟨im, root, queue, srcs, hqueue, hobs, hfin, by rw [hrun.same.1, hbs], hfiles, ?_⟩
  rw [hrun.same.1, hcompression]
  exact DecompressingEngine.new_of_compressing hengine

/-- **An append finishes an archive** of the old blocks and the chunks of its stream. -/
theorem appendFile_finished (hK : K.Lawful) {arch : ArchiveWriter} {im : Image K} {raws : List Bytes}
    (hf : Finished arch im raws) (hs : Sizes K Limits.default arch) {setup : AppendSetup} {env : Env}
    {args : AppendArgs}
    {arch' : ArchiveWriter} (hkey : Cipher.new K setup.prompts arch.header args.confirm = .ok arch.cipher)
    (h : appendFile K setup env arch.writer.bytes args = .ok arch') :
    ∃ (im' : Image K) (root : Path) (queue : List Path) (srcs : List Source) (processed : List ProcessedBlock),
      queueAppend setup arch.index.files args.fileToAppend = .ok (root, queue) ∧
      List.Forall₂ (fun p src => observe env.os root arch.header.blockSize p = .ok src) queue srcs ∧
      Finished arch' im' (raws ++ chunks arch.header.blockSize (Source.stream srcs)) ∧
      im'.headerBytes = im.headerBytes ∧ im.data <+: im'.data ∧
      arch'.header = arch.header ∧ arch'.cipher = arch.cipher ∧
      arch'.index.files = arch.index.files ++ Source.entries arch.index.totalStreamSize srcs ∧
      arch'.index.block = arch.index.block ++ blockEntries arch.filePosition processed := by
  obtain ⟨structs, root, queue, srcs, processed, hload, hqueue, hobs, hrun⟩ := appendFile_ok h
  obtain rfl : ⟨arch.header, arch.index, arch.cipher, im.footer⟩ = structs :=
    Except.ok.inj ((hf.retrieve hK hs hkey args.archivePath).symm.trans hload)
  have hoff := (Image.footer_eq (hf.within hs)).1
  have hlt := hrun.stored_lt hK hs.small
  dsimp only at hrun
  have hfile : im.footer.indexOffset = arch.filePosition := hoff.trans hf.filePosition.symm
  rw [hf.total] at hrun
  obtain ⟨im', hfin, hbytes, hdata, hfiles, hblock⟩ := hrun.finished hK (hf.reopen hoff setup.faults) hlt
  refine ⟨im', root, queue, srcs, processed, hqueue, hobs, hfin, hbytes, hdata ▸ List.prefix_append _ _, hrun.same.1,
    hrun.same.2, by rw [hf.total]; exact hfiles, ?_⟩
  rw [← hfile]
  exact hblock

/-! ## Many runs -/

variable (K) in
/-- How an archive comes about: a compression and any number of appends. `P` is what is known of the files read by each
run and of the block size. An archive that is appended to is loaded with the default limits, and the password is the
one it was made with. -/
inductive Made (P : Os → Nat → Prop) : ArchiveWriter → Prop
  | compress {setup : Setup} {env : Env} {args : CompressArgs} {arch : ArchiveWriter} :
    P env.os args.bs → initializeCompression K setup env args = .ok arch → Made P arch
  | append {arch arch' : ArchiveWriter} {setup : AppendSetup} {env : Env} {args : AppendArgs} :
    Made P arch → Sizes K Limits.default arch →
    Cipher.new K setup.prompts arch.header args.confirm = .ok arch.cipher → P env.os arch.header.blockSize →
    appendFile K setup env arch.writer.bytes args = .ok arch' → Made P arch'

/-- Blocks are not empty and no file changes. -/
def Steady (os : Os) (bs : Nat) : Prop := 0 < bs ∧ os.Still

/-- **The file of a history** holds the blocks of all its runs. -/
theorem Made.finished (hK : K.Lawful) {P : Os → Nat → Prop} {arch : ArchiveWriter} (hmade : Made K P arch)
    (hsize : arch.header.blockSize + 16 < 2 ^ 32 ∨ arch.Recorded) :
    ∃ (im : Image K) (raws : List Bytes), Finished arch im raws ∧
      DecompressingEngine.new K arch.header.compression = .ok ⟨arch.header.compression⟩ := by
  induction hmade with
  | compress _ h =>
    obtain ⟨im, _, _, srcs, _, _, hfin, _, _, hengine⟩ := initializeCompression_finished hK h hsize
    exact ⟨im, _, hfin, hengine⟩
  | append _ hs hkey _ happ ih =>
    obtain ⟨im, raws, hf, hengine⟩ := ih (.inl hs.small)
    obtain ⟨im', _, _, _, _, _, _, hfin, _, _, hheader, _, _, _⟩ := appendFile_finished hK hf hs hkey happ
    exact ⟨im', _, hfin, hheader ▸ hengine⟩

/-- The entries of unchanged sources lie in the stream. -/
theorem Source.inside {pos : Nat} {srcs : List Source} (hsrcs : ∀ src ∈ srcs, src.Unchanged) {e : FileEntry}
    (he : e ∈ entries pos srcs) : e.streamOffset + e.size ≤ pos + (stream srcs).length := by
  obtain ⟨i, hi⟩ := List.mem_iff_getElem?.1 he
  have hlt : i < srcs.length := by
    rw [← length_entries pos srcs]
    exact (List.getElem?_eq_some_iff.1 hi).1
  obtain ⟨a, b, hs, he⟩ := locate pos (List.getElem?_eq_getElem hlt)
  cases he.symm.trans hi
  have hsize : (srcs[i].entry (pos + a.length)).size = srcs[i].data.length :=
    (hsrcs _ (List.getElem_mem hlt)).symm
  rw [hsize, hs, entry_streamOffset]
  simp only [List.length_append]
  omega

/-- The sources of a steady run are unchanged. -/
theorem Steady.unchanged {os : Os} {root : Path} {bs : Nat} (h : Steady os bs) {queue : List Path} {srcs : List Source}
    (hobs : List.Forall₂ (fun p src => observe os root bs p = .ok src) queue srcs) : ∀ src ∈ srcs, src.Unchanged := by
  intro src hsrc
  obtain ⟨p, _, hp⟩ := Except.mem_of_mapM_ok (Except.mapM_eq_ok.2 hobs) hsrc
  exact observe_unchanged h.2 h.1 hp

/-- **When no file changes** every entry lies in the stream. -/
theorem Made.inside (hK : K.Lawful) {arch : ArchiveWriter} (hmade : Made K Steady arch)
    (hsize : arch.header.blockSize + 16 < 2 ^ 32 ∨ arch.Recorded) :
    0 < arch.header.blockSize ∧
      ∀ e ∈ arch.index.files, e.streamOffset + e.size ≤ arch.index.totalStreamSize := by
  induction hmade with
  | compress hP h =>
    obtain ⟨_, _, _, srcs, _, hobs, hfin, hbs, hfiles, _⟩ := initializeCompression_finished hK h hsize
    refine ⟨hbs ▸ hP.1, fun e he => ?_⟩
    rw [hfiles] at he
    rw [hfin.total, flatten_chunks]
    simpa using Source.inside (hP.unchanged hobs) he
  | append hmade hs hkey hP happ ih =>
    obtain ⟨hpos, hold⟩ := ih (.inl hs.small)
    obtain ⟨im, raws, hf, _⟩ := hmade.finished hK (.inl hs.small)
    obtain ⟨_, _, _, srcs, _, _, hobs, hfin, _, _, hheader, _, hfiles, _⟩ := appendFile_finished hK hf hs hkey happ
    refine ⟨hheader ▸ hpos, fun e he => ?_⟩
    rw [hfin.total, List.flatten_append, List.length_append, flatten_chunks, ← hf.total]
    rw [hfiles] at he
    rcases List.mem_append.1 he with he | he
    · exact Nat.le_trans (hold e he) (Nat.le_add_right _ _)
    · exact Source.inside (hP.unchanged hobs) he

/-! ## Decoding -/

namespace Finished

variable {arch : ArchiveWriter} {im : Image K} {raws : List Bytes}

/-- **The range of an entry decodes** to its window of the stream. -/
theorem decodeEntry (hf : Finished arch im raws) (hsmall : arch.header.blockSize + 16 < 2 ^ 32)
    (hoff : arch.filePosition < 2 ^ 63)
    (hengine : DecompressingEngine.new K arch.header.compression = .ok ⟨arch.header.compression⟩) (p out : Path)
    (limits : Limits) (e : FileEntry) :
    (arch.reader p out limits).decodeEntry K e = .ok (slice e.streamOffset e.size raws.flatten) := by
  have hlt := hf.blocks_small hsmall
  exact ArchiveReader.decodeEntry_eq (hf.decoded hoff hlt p out limits)
    (hf.readable hoff hlt p out limits) hengine e

/-- A stored block lies in the data region. -/
theorem slice_stored (hf : Finished arch im raws) {b : BlockEntry} (hb : b ∈ arch.index.block) (rest : Bytes) :
    slice b.offset b.sizeStored arch.writer.bytes = slice b.offset b.sizeStored (im.lead ++ im.data ++ rest) := by
  obtain ⟨i, hi⟩ := List.mem_iff_getElem?.1 hb
  have hlt : i < raws.length := by
    rw [← hf.region.length_block]
    exact (List.getElem?_eq_some_iff.1 hi).1
  obtain ⟨c, pre, post, _, hc, hdata, he⟩ := hf.region.entry (List.getElem?_eq_getElem hlt)
  cases he.symm.trans hi
  have hin : im.start + pre.length + u32 c.processedData.length ≤ (im.lead ++ im.data).length := by
    rw [u32_of_lt hc, List.length_append, Image.length_lead, hdata]
    simp only [List.length_append]
    omega
  show slice (im.start + pre.length) (u32 c.processedData.length) _ = _
  rw [hf.bytes, Image.bytes, List.append_assoc _ im.sealedIndex]
  exact (slice_append_left hin _).trans (slice_append_left hin _).symm

end Finished

/-! ## Appending preserves -/

/-- **An append preserves what was there and adds what was asked**, after any history. -/
theorem append_preserves (hK : K.Lawful) {arch arch' : ArchiveWriter} (hmade : Made K Steady arch)
    (hs : Sizes K Limits.default arch) {setup : AppendSetup} {env : Env} {args : AppendArgs}
    (hkey : Cipher.new K setup.prompts arch.header args.confirm = .ok arch.cipher) (hstill : env.os.Still)
    (happend : appendFile K setup env arch.writer.bytes args = .ok arch') (hs' : Sizes K Limits.default arch')
    (p out : Path) :
    let r := arch.reader p out Limits.default
    let r' := arch'.reader p out Limits.default
    ArchiveReader.new K arch.writer.bytes p out Limits.default setup.prompts args.confirm = .ok r ∧
    ArchiveReader.new K arch'.writer.bytes p out Limits.default setup.prompts args.confirm = .ok r' ∧
    arch.index.block <+: arch'.index.block ∧
    (∀ b ∈ arch.index.block,
      slice b.offset b.sizeStored arch'.writer.bytes = slice b.offset b.sizeStored arch.writer.bytes) ∧
    (∀ e ∈ arch.index.files, ∃ d, r.decodeEntry K e = .ok d ∧ r'.decodeEntry K e = .ok d) ∧
    ∃ root queue new, queueAppend setup arch.index.files args.fileToAppend = .ok (root, queue) ∧
      arch'.index.files = arch.index.files ++ new ∧
      List.Forall₂ (fun path e => ∃ src, observe env.os root arch.header.blockSize path = .ok src ∧
        e = src.entry e.streamOffset ∧ r'.decodeEntry K e = .ok src.data) queue new := by
  intro r r'
  obtain ⟨im, raws, hf, hengine⟩ := hmade.finished hK (.inl hs.small)
  obtain ⟨hpos, hinside⟩ := hmade.inside hK (.inl hs.small)
  obtain ⟨im', root, queue, srcs, processed, hqueue, hobs, hf', hlead, hdata, hheader, hcipher, hfiles, hblock⟩ :=
    appendFile_finished hK hf hs hkey happend
  have hengine' : DecompressingEngine.new K arch'.header.compression = .ok ⟨arch'.header.compression⟩ :=
    hheader ▸ hengine
  have hsrcs : ∀ src ∈ srcs, src.Unchanged := Steady.unchanged ⟨hpos, hstill⟩ hobs
  refine ⟨hf.new_reader hK hs hkey p out, hf'.new_reader hK hs' (by rw [hheader, hcipher]; exact hkey) p out,
    hblock ▸ List.prefix_append _ _, fun b hb => ?_, fun e he => ?_, root, queue,
    Source.entries arch.index.totalStreamSize srcs, hqueue, hfiles, ?_⟩
  · -- the old data region is a prefix of the new one, behind the same header
    obtain ⟨more, hmore⟩ := hdata
    have hbytes : arch'.writer.bytes = im.lead ++ im.data ++ (more ++ im'.sealedIndex ++ im'.footer.serialize) := by
      rw [hf'.bytes, Image.bytes, ← hmore]
      simp [Image.lead, hlead]
    rw [hbytes]
    exact (hf.slice_stored hb _).symm
  · refine ⟨_, hf.decodeEntry hs.small hs.offset hengine p out _ e, ?_⟩
    rw [hf'.decodeEntry hs'.small hs'.offset hengine' p out _ e, List.flatten_append,
      slice_append_left (hf.total ▸ hinside e he)]
  · refine List.forall₂_iff_get.2 ⟨by rw [hobs.length_eq, Source.length_entries], fun i hi he => ?_⟩
    have hlt : i < srcs.length := by rw [Source.length_entries] at he; exact he
    obtain ⟨a, b, hstream, hentry⟩ := Source.locate arch.index.totalStreamSize
      (List.getElem?_eq_getElem hlt)
    obtain ⟨_, hget⟩ := List.getElem?_eq_some_iff.1 hentry
    refine ⟨srcs[i], (List.forall₂_iff_get.1 hobs).2 i hi hlt, ?_, ?_⟩
    · rw [List.get_eq_getElem, hget]; rfl
    · have hsize : (srcs[i].entry (arch.index.totalStreamSize + a.length)).size = srcs[i].data.length :=
        (hsrcs _ (List.getElem_mem hlt)).symm
      rw [List.get_eq_getElem, hget, hf'.decodeEntry hs'.small hs'.offset hengine' p out _ _, hsize,
        Source.entry_streamOffset, List.flatten_append, flatten_chunks, hf.total, hstream, ← List.append_assoc,
        ← List.append_assoc]
      rw [slice_mid_of_eq (by simp) rfl]

/-! ## A small history -/

/-- What is shown of a finished archive. -/
def ArchiveWriter.shown (arch : ArchiveWriter) : Bytes × Index × Nat × Header × Cipher :=
  (arch.writer.bytes, arch.index, arch.filePosition, arch.header, arch.cipher)

/-- The index after `b` was appended, two bytes. -/
def indexOfAB : Index where
  files := indexOfA.files ++ [plainFile "b" 3 2]
  block := indexOfA.block ++ [plainBlock 7 [4, 5]]
  totalStreamSize := 5

/-- Such an archive, with an index encoded as `n` zeros, is within the limits. -/
theorem sizes_of_shown {data : Bytes} {index : Index} {n : Nat} {footer : Footer} {arch : ArchiveWriter}
    (hshown : arch.shown = ([0, 0, 0, 0] ++ data ++ List.replicate n 0 ++ footer.serialize, index, 4 + data.length,
      Header.stored 2, .none))
    (hvec : K.headerToVec (Header.stored 2) = some []) (hindex : K.indexToVec index = some (List.replicate n 0))
    (hn : n ≤ MAX_INDEX_SIZE) (hdata : 4 + data.length < 2 ^ 63) : Sizes K Limits.default arch := by
  unfold ArchiveWriter.shown at hshown
  simp only [Prod.mk.injEq] at hshown
  obtain ⟨hbytes, hidx, hpos, hheader, _⟩ := hshown
  have hsize : arch.indexSize = n := by
    unfold ArchiveWriter.indexSize
    rw [hbytes, hpos]
    simp
    omega
  have hlt : n < 2 ^ 32 := Nat.lt_of_le_of_lt hn (by decide)
  exact {
    blockSize := by rw [hheader]; decide
    mCost := by rw [hheader]; decide
    header := fun b hb => by
      rw [hheader, hvec] at hb
      cases hb
      decide
    index := fun b hb => by
      rw [hidx, hindex] at hb
      cases hb
      rw [List.length_replicate]
      exact ⟨hn, hlt⟩
    stored := by rw [hsize]; exact ⟨hn, hlt⟩
    offset := by rw [hpos]; exact hdata }

/-- **Three bytes, then two more**: the old ones stay and the new ones are added. -/
theorem append_preserves_small :
    let K := Crates.tabled [Header.stored 2] [indexOfA, indexOfAB]
    ∃ arch arch' : ArchiveWriter, Made K Steady arch ∧ arch.index = indexOfA ∧ arch'.index = indexOfAB ∧
      (∀ b ∈ arch.index.block,
        slice b.offset b.sizeStored arch'.writer.bytes = slice b.offset b.sizeStored arch.writer.bytes) ∧
      ∀ e ∈ arch.index.files, ∃ d, (arch.reader [] [] Limits.default).decodeEntry K e = .ok d ∧
        (arch'.reader [] [] Limits.default).decodeEntry K e = .ok d := by
  intro K
  let a : Path := [.normal "src", .normal "a"]
  let b : Path := [.normal "src", .normal "b"]
  let footer : Footer := ⟨7, 0, 0, false, Vector.replicate 12 0⟩
  let footer' : Footer := ⟨9, 1, 1, false, Vector.replicate 12 0⟩
  obtain ⟨arch, hmade, hshown⟩ := Except.exists_of_toOption_map (f := ArchiveWriter.shown)
    (x := initializeCompression K (Setup.plain [a]) (Env.plain (Os.ofFiles [(a, 3, [1, 2, 3])])) (CompressArgs.plain 2))
    (b := ([0, 0, 0, 0] ++ [1, 2, 3] ++ List.replicate 0 0 ++ footer.serialize, indexOfA, 7, Header.stored 2, .none))
    (by decide +kernel)
  have hs : Sizes K Limits.default arch :=
    sizes_of_shown hshown (by decide +kernel) (by decide +kernel) (by decide) (by decide)
  unfold ArchiveWriter.shown at hshown
  simp only [Prod.mk.injEq] at hshown
  obtain ⟨hbytes, hidx, _, hheader, hcipher⟩ := hshown
  obtain ⟨arch', happend, hshown'⟩ := Except.exists_of_toOption_map (f := ArchiveWriter.shown)
    (x := appendFile K (AppendSetup.plain [a, b])
      (Env.plain (Os.ofFiles [(a, 3, [1, 2, 3]), (b, 2, [4, 5])])) arch.writer.bytes AppendArgs.plain)
    (b := ([0, 0, 0, 0] ++ [1, 2, 3, 4, 5] ++ List.replicate 1 0 ++ footer'.serialize, indexOfAB, 9, Header.stored 2,
      .none))
    (by rw [hbytes]; decide +kernel)
  have hs' : Sizes K Limits.default arch' :=
    sizes_of_shown hshown' (by decide +kernel) (by decide +kernel) (by decide) (by decide)
  have hmade : Made K Steady arch := .compress ⟨by decide, Os.ofFiles_still (by decide)⟩ hmade
  have hall := append_preserves (Crates.tabled_lawful _ _) hmade hs (by rw [hheader, hcipher]; rfl)
    (Os.ofFiles_still (by decide)) happend hs' [] []
  exact ⟨arch, arch', hmade, hidx, congrArg (·.2.1) hshown', hall.2.2.2.1, hall.2.2.2.2.1⟩

end Cryo
