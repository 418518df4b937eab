import Cryo.Records
import Cryo.RoundTrip
import Cryo.Scan

/-!
# The representation of an archive

What holds of the file and the index of every archive that a compression and any number of appends leave: the blocks
follow each other from the header to the index, their sizes are within the block size, the names of the entries are
distinct, and the ranges of the regular files tile the stream (`Layout`). Each run keeps it: a compression because the
scan finds no path twice, an append because it drops the paths that are there (`retainNew_nodup`) and continues where
the loaded archive ends.

The length of the file is the one exception, since the footer has 32 bits for the size of the index.

* `represented_iff`: in every history, the whole invariant holds exactly of the archives whose sealed index is shorter
  than 4 GiB.
-/

namespace Cryo

open Posix Bytes Chunk

variable {K : Crates}

/-! ## Tiles -/

/-- The ranges of entries follow each other in the stream, from one position to another. -/
def Tiles : Nat → List FileEntry → Nat → Prop
  | start, [], stop => start = stop
  | start, e :: es, stop => e.streamOffset = start ∧ Tiles (start + e.size) es stop

theorem Tiles.append : ∀ {as bs : List FileEntry} {s m e : Nat}, Tiles s as m → Tiles m bs e → Tiles s (as ++ bs) e
  | [], _, _, _, _, h, h' => by cases h; exact h'
  | _ :: _, _, _, _, _, ⟨h1, h2⟩, h' => ⟨h1, h2.append h'⟩

/-- The regular files among entries. -/
def regular (files : List FileEntry) : List FileEntry := files.filter (·.ftype = .file)

theorem regular_append (as bs : List FileEntry) : regular (as ++ bs) = regular as ++ regular bs :=
  List.filter_append _ _

/-- **The files of unchanged sources tile** their stream. -/
theorem tiles_entries : ∀ {srcs : List Source} (pos : Nat), (∀ src ∈ srcs, src.Unchanged) →
    Tiles pos (regular (Source.entries pos srcs)) (pos + (Source.stream srcs).length)
  | [], _, _ => rfl
  | src :: srcs, pos, h => by
    have hsize : (src.entry pos).size = src.data.length := (h src List.mem_cons_self).symm
    have ih := tiles_entries (pos + src.data.length) fun x hx => h x (List.mem_cons_of_mem _ hx)
    rw [Source.stream_cons, List.length_append, ← Nat.add_assoc]
    unfold regular at ih ⊢
    rw [Source.entries]
    cases hf : src.isFile with
    | true =>
      have hft : (src.entry pos).ftype = .file := by simpa [Source.isFile] using hf
      rw [List.filter_cons_of_pos (p := fun e : FileEntry => e.ftype = .file) (decide_eq_true hft)]
      refine ⟨rfl, ?_⟩
      rw [hsize]
      exact ih
    | false =>
      have hft : (src.entry pos).ftype ≠ .file := by simpa [Source.isFile] using hf
      rw [List.filter_cons_of_neg (p := fun e : FileEntry => e.ftype = .file) (by rw [decide_eq_true_eq]; exact hft)]
      have hnone : src.data.length = 0 := by
        rw [← hsize]
        simp [Source.entry, hf]
      rw [hnone, Nat.add_zero] at ih ⊢
      exact ih

/-! ## Names -/

theorem Source.paths_entries : ∀ (pos : Nat) (srcs : List Source),
    (entries pos srcs).map FileEntry.path = srcs.map Source.path
  | _, [] => rfl
  | pos, src :: srcs => by
    rw [entries, List.map_cons, List.map_cons, paths_entries _ srcs, entry_path]

section

variable {os : Os} {root : Path} {bs : Nat} {p : Path} {src : Source}

/-- A path that was read is the root followed by the name of its entry. -/
theorem observe_path (h : observe os root bs p = .ok src) : p = root ++ src.path := by
  obtain ⟨_, hstrip, _⟩ := observe_ok h
  exact Path.eq_of_stripPrefix hstrip

/-- Different paths give different names. -/
theorem nodup_paths {queue : List Path} {srcs : List Source} (hqueue : queue.Nodup)
    (hobs : List.Forall₂ (fun p src => observe os root bs p = .ok src) queue srcs) : (srcs.map Source.path).Nodup := by
  have heq : queue = (srcs.map Source.path).map (root ++ ·) := by
    clear hqueue
    induction hobs with
    | nil => rfl
    | cons h _ ih => rw [List.map_cons, List.map_cons, ← ih, ← observe_path h]
  rw [heq] at hqueue
  exact hqueue.of_map _

/-- **What an append retains** has names that are new, in the archive and among themselves. -/
theorem retainNew_nodup : ∀ {paths seen : List Path} {srcs : List Source},
    List.Forall₂ (fun p src => observe os root bs p = .ok src) (retainNew root seen paths) srcs →
    (srcs.map Source.path).Nodup ∧ ∀ q ∈ srcs.map Source.path, q ∉ seen
  | [], _, _, hobs => by
    cases hobs
    simp
  | p :: paths, seen, srcs, hobs => by
    unfold retainNew at hobs
    split at hobs
    · rename_i stripped hstrip
      split at hobs
      · exact retainNew_nodup hobs
      · rename_i hnew
        cases hobs with
        | cons hsrc hrest =>
          obtain rfl := Option.some.inj (hstrip.symm.trans (observe_ok hsrc).2.1)
          obtain ⟨hnodup, hseen⟩ := retainNew_nodup hrest
          rw [List.map_cons]
          refine ⟨List.nodup_cons.2 ⟨fun hmem => hseen _ hmem List.mem_cons_self, hnodup⟩, fun q hq => ?_⟩
          rcases List.mem_cons.1 hq with rfl | hq
          · exact hnew
          · exact fun hs => hseen q hq (List.mem_cons_of_mem _ hs)
    · rename_i hnone
      cases hobs with
      | cons hsrc _ =>
        rw [(observe_ok hsrc).2.1] at hnone
        cases hnone

end

/-! ## Histories -/

variable (K) in
/-- No length in the archive needs more bits than its field has, and the file is one that can be addressed. -/
structure Unnarrowed (arch : ArchiveWriter) : Prop where
  header : ∀ b, K.headerToVec arch.header = some b → b.length < 2 ^ 32
  index : ∀ b, K.indexToVec arch.index = some b → b.length < 2 ^ 32
  stored : arch.indexSize < 2 ^ 32
  offset : arch.filePosition < 2 ^ 63

theorem Sizes.unnarrowed {limits : Limits} {arch : ArchiveWriter} (hs : Sizes K limits arch) : Unnarrowed K arch :=
  ⟨fun b hb => (hs.header b hb).2, fun b hb => (hs.index b hb).2, hs.stored.2, hs.offset⟩

/-- The scan of a directory finds what is there. -/
def Setup.Scans (setup : Setup) : Prop :=
  ∀ root files, setup.retrieveAllFiles root = .ok files → ∃ dirs, Finds dirs root files

variable (K) in
/-- A compression with a block size that the readers accept, and any number of appends, no file changing while it is
read; the archives that were appended to are `Unnarrowed`, and the password is that of the archive. -/
inductive Chain : ArchiveWriter → Prop
  | compress {setup : Setup} {env : Env} {args : CompressArgs} {arch : ArchiveWriter} :
    1 ≤ args.bs → args.bs ≤ MAX_BLOCK_SIZE → env.os.Still → setup.Scans →
    initializeCompression K setup env args = .ok arch → Chain arch
  | append {arch arch' : ArchiveWriter} {setup : AppendSetup} {env : Env} {args : AppendArgs} :
    Chain arch → Unnarrowed K arch → Cipher.new K setup.prompts arch.header args.confirm = .ok arch.cipher →
    env.os.Still → appendFile K setup env arch.writer.bytes args = .ok arch' → Chain arch'

/-- **An archive that was loaded is within the limits**, when none of its lengths was cut. -/
theorem Finished.sizes_of_retrieve (hK : K.Lawful) {arch : ArchiveWriter} {im : Image K} {raws : List Bytes}
    (hf : Finished arch im raws) (hfits : Unnarrowed K arch) {limits : Limits} {p : Path} {prompts : Prompts}
    {confirm : Bool} {structs : FileStructs}
    (hload : Cryo.retrieve K arch.writer.bytes p limits prompts confirm = .ok structs) : Sizes K limits arch := by
  obtain ⟨hheader, hfooter, _, _⟩ := retrieve_ok.1 hload
  have hvec : K.headerToVec arch.header = some im.headerBytes := by rw [hf.header]; exact im.headerVec
  have hlt := hfits.header _ hvec
  rw [hf.bytes] at hheader hfooter
  -- the header
  have hsplit : im.bytes = leBytes 4 (u32 im.headerBytes.length) ++ im.headerBytes ++
      (im.data ++ im.sealedIndex ++ im.footer.serialize) := by simp [Image.bytes, Image.lead]
  rw [hsplit] at hheader
  have hsize : im.headerBytes.length ≤ limits.effMaxHeader := by
    obtain ⟨size, _, hread, hlimit, _⟩ := retrieveHeader_ok.1 hheader
    have hfour : readAt (leBytes 4 (u32 im.headerBytes.length) ++ im.headerBytes ++
        (im.data ++ im.sealedIndex ++ im.footer.serialize)) 0 4 = .ok (leBytes 4 (u32 im.headerBytes.length)) := by
      rw [List.append_assoc]
      exact readAt_mid (a := []) rfl (by simp)
    obtain rfl := Except.ok.inj (hfour.symm.trans hread)
    rwa [leVal_leBytes (u32_lt _), u32_of_lt hlt] at hlimit
  rw [retrieveHeader_front hK hvec hf.version hf.magic hsize hlt] at hheader
  obtain ⟨_, hblock, hheader⟩ := Except.bind_eq_ok.1 hheader
  obtain ⟨_, hcost, _⟩ := Except.bind_eq_ok.1 hheader
  -- the footer
  obtain ⟨warch, nonce, _, _, hindex, hpos, hseal⟩ := im.sealedBy
  obtain ⟨hoffset, hstored, ib, hib, hplain⟩ := footer_of_sealIndex hseal
  have hindexSize := hf.indexSize
  have hib : K.indexToVec arch.index = some ib := by rw [hf.index, ← hindex]; exact hib
  have hfooterFits : im.footer.Fits := by
    refine ⟨?_, hstored ▸ u32_lt _, hplain ▸ u32_lt _⟩
    have := hfits.offset
    rw [hf.filePosition, Image.start] at this
    omega
  have hfront : im.bytes = (im.lead ++ im.data ++ im.sealedIndex) ++ im.footer.serialize := rfl
  rw [hfront, retrieveFooter_end_eq _ hfooterFits] at hfooter
  obtain ⟨_, hlimit, hfooter⟩ := Except.bind_eq_ok.1 hfooter
  obtain ⟨_, hlimit', _⟩ := Except.bind_eq_ok.1 hfooter
  have hlimit := Nat.not_lt.1 (failIf_ok.1 hlimit)
  have hlimit' := Nat.not_lt.1 (failIf_ok.1 hlimit')
  rw [hstored, ← hindexSize, u32_of_lt hfits.stored] at hlimit
  rw [hplain, u32_of_lt (hfits.index ib hib)] at hlimit'
  exact {
    blockSize := Nat.not_lt.1 (failIf_ok.1 hblock)
    mCost := Nat.not_lt.1 (failIf_ok.1 hcost)
    header := fun b hb => by
      obtain rfl := Option.some.inj (hvec.symm.trans hb)
      exact ⟨hsize, hlt⟩
    index := fun b hb => by
      obtain rfl := Option.some.inj (hib.symm.trans hb)
      exact ⟨hlimit', hfits.index _ hib⟩
    stored := ⟨hlimit, hfits.stored⟩
    offset := hfits.offset }

/-- A chain is a history of unchanged files. -/
theorem Chain.made (hK : K.Lawful) {arch : ArchiveWriter} (h : Chain K arch) :
    Made K Steady arch ∧ 1 ≤ arch.header.blockSize ∧ arch.header.blockSize ≤ MAX_BLOCK_SIZE := by
  have hsmall : ∀ {n}, n ≤ MAX_BLOCK_SIZE → n + 16 < 2 ^ 32 := fun h =>
    Nat.lt_of_le_of_lt (Nat.add_le_add_right h 16) (by decide)
  induction h with
  | compress hone hmax hstill _ hrun =>
    rw [initializeCompression_blockSize hrun]
    exact ⟨.compress ⟨hone, hstill⟩ hrun, hone, hmax⟩
  | append _ hfits hkey hstill happ ih =>
    obtain ⟨hmade, hone, hmax⟩ := ih
    obtain ⟨im, raws, hf, _⟩ := hmade.finished hK (.inl (hsmall hmax))
    obtain ⟨_, _, _, _, _, hload, _⟩ := appendFile_ok happ
    have hs := hf.sizes_of_retrieve hK hfits hload
    obtain ⟨_, _, _, _, _, _, _, _, _, _, hheader, _⟩ := appendFile_finished hK hf hs hkey happ
    exact ⟨.append hmade hs hkey ⟨hone, hstill⟩ happ, hheader ▸ hone, hheader ▸ hmax⟩

/-- The queue of a compression holds every path once. -/
theorem nodup_queue {setup : Setup} (hscans : setup.Scans) {path root : Path} {recursive : Bool} {queue : List Path}
    (h : queueFiles setup path recursive = .ok (root, queue)) : queue.Nodup := by
  unfold queueFiles at h
  split at h
  · obtain ⟨files, hfiles, h⟩ := Except.bind_eq_ok.1 h
    obtain ⟨_, rfl⟩ := Prod.mk.inj (Except.ok.inj h)
    obtain ⟨dirs, hfinds⟩ := hscans path _ hfiles
    exact (retrieveAllFiles_found hfinds).1
  · split at h
    · cases h
    · obtain ⟨_, rfl⟩ := Prod.mk.inj (Except.ok.inj h)
      simp

/-- The queue of an append is what it retains of some paths. -/
theorem queueAppend_ok {setup : AppendSetup} {files : List FileEntry} {path root : Path} {queue : List Path}
    (h : queueAppend setup files path = .ok (root, queue)) :
    ∃ paths, queue = retainNew root (files.map FileEntry.path) paths := by
  unfold queueAppend at h
  split at h
  · obtain ⟨paths, _, h⟩ := Except.bind_eq_ok.1 h
    obtain ⟨rfl, rfl⟩ := Prod.mk.inj (Except.ok.inj h)
    exact ⟨paths, rfl⟩
  · obtain ⟨rfl, rfl⟩ := Prod.mk.inj (Except.ok.inj h)
    exact ⟨_, rfl⟩

/-- **Every history** leaves blocks that are not empty, distinct names, and files that tile the stream. -/
theorem Chain.keeps (hK : K.Lawful) {arch : ArchiveWriter} (h : Chain K arch) :
    ∃ (im : Image K) (raws : List Bytes), Finished arch im raws ∧ (∀ raw ∈ raws, 0 < raw.length) ∧
      (arch.index.files.map FileEntry.path).Nodup ∧
      Tiles 0 (regular arch.index.files) arch.index.totalStreamSize := by
  have hchunks : ∀ {bs : Nat} {srcs : List Source}, 1 ≤ bs → ∀ raw ∈ chunks bs (Source.stream srcs), 0 < raw.length :=
    fun hone raw hraw => (length_of_mem_chunks hone hraw).1
  induction h with
  | compress hone hmax hstill hscans hrun =>
    have hsmall := Nat.lt_of_le_of_lt (Nat.add_le_add_right hmax 16) (by decide : MAX_BLOCK_SIZE + 16 < 2 ^ 32)
    obtain ⟨im, root, queue, srcs, hqueue, hobs, hf, _, hfiles, _⟩ :=
      initializeCompression_finished hK hrun (.inl (initializeCompression_blockSize hrun ▸ hsmall))
    refine ⟨im, _, hf, hchunks hone, ?_, ?_⟩
    · rw [hfiles, Source.paths_entries]
      exact nodup_paths (nodup_queue hscans hqueue) hobs
    · have htiles := tiles_entries 0 (Steady.unchanged ⟨hone, hstill⟩ hobs)
      rw [hf.total, flatten_chunks, hfiles]
      rwa [Nat.zero_add] at htiles
  | @append arch arch' setup env args hchain hfits hkey hstill happ ih =>
    obtain ⟨im, raws, hf, hraws, hdistinct, htiles⟩ := ih
    obtain ⟨_, hone, _⟩ := hchain.made hK
    obtain ⟨_, _, _, _, _, hload, _⟩ := appendFile_ok happ
    have hs := hf.sizes_of_retrieve hK hfits hload
    obtain ⟨im', root, queue, srcs, _, hqueue, hobs, hf', _, _, _, _, hfiles, _⟩ :=
      appendFile_finished hK hf hs hkey happ
    refine ⟨im', _, hf', fun raw hraw => ?_, ?_, ?_⟩
    · rcases List.mem_append.1 hraw with hraw | hraw
      · exact hraws raw hraw
      · exact hchunks hone raw hraw
    · obtain ⟨paths, rfl⟩ := queueAppend_ok hqueue
      obtain ⟨hnodup, hnew⟩ := retainNew_nodup hobs
      rw [hfiles, List.map_append, Source.paths_entries]
      refine List.nodup_append.2 ⟨hdistinct, hnodup, ?_⟩
      rintro q hq q' hq' rfl
      exact hnew q hq' hq
    · have hnew := tiles_entries arch.index.totalStreamSize (Steady.unchanged ⟨hone, hstill⟩ hobs)
      rw [hf'.total, List.flatten_append, List.length_append, flatten_chunks, ← hf.total, hfiles, regular_append]
      exact htiles.append hnew

/-! ## The invariant -/

variable (K) in
/-- The header and the blocks in the file are where the index and the footer say, of the sizes they say; the entries
have distinct names, and the regular files tile the stream. -/
structure Layout (arch : ArchiveWriter) (headerBytes : Bytes) (footer : Footer) : Prop where
  header : K.headerToVec arch.header = some headerBytes
  lead : leBytes 4 (u32 headerBytes.length) ++ headerBytes <+: arch.writer.bytes
  tail : Footer.deserialize (arch.writer.bytes.drop (arch.writer.bytes.length - 29)) = .ok footer
  blocks : Contiguous (4 + headerBytes.length) arch.index.block footer.indexOffset
  plain : ∀ b ∈ arch.index.block, 1 ≤ b.sizePlain ∧ b.sizePlain ≤ arch.header.blockSize
  stored : ∀ b ∈ arch.index.block, b.sizeStored ≤ arch.header.blockSize + STORED_BLOCK_OVERHEAD
  total : arch.index.totalStreamSize = (arch.index.block.map BlockEntry.sizePlain).sum
  distinct : (arch.index.files.map FileEntry.path).Nodup
  tiles : Tiles 0 (regular arch.index.files) arch.index.totalStreamSize

variable (K) in
/-- The whole invariant: the layout, and the file ends with the footer behind an index of the recorded size. -/
def Represented (arch : ArchiveWriter) : Prop := ∃ headerBytes footer, Layout K arch headerBytes footer ∧
  arch.writer.bytes.length = footer.indexOffset + footer.indexSizeStored + 29

/-- The sizes of the blocks of a finished archive. -/
theorem Finished.block_sizes {arch : ArchiveWriter} {im : Image K} {raws : List Bytes} (hf : Finished arch im raws)
    (hsmall : arch.header.blockSize < 2 ^ 32) (hraws : ∀ raw ∈ raws, 0 < raw.length) {b : BlockEntry}
    (hb : b ∈ arch.index.block) : (1 ≤ b.sizePlain ∧ b.sizePlain ≤ arch.header.blockSize) ∧
      b.sizeStored ≤ arch.header.blockSize + STORED_BLOCK_OVERHEAD := by
  obtain ⟨i, hi⟩ := List.mem_iff_getElem?.1 hb
  have hlt : i < raws.length := by
    rw [← hf.region.length_block]
    exact (List.getElem?_eq_some_iff.1 hi).1
  obtain ⟨c, pre, post, hseal, hstored, _, he⟩ := hf.region.entry (List.getElem?_eq_getElem hlt)
  cases he.symm.trans hi
  have hmem := List.getElem_mem hlt
  have hfits := hf.blockFits _ hmem
  have hpos := hraws _ hmem
  have hplain : (c.entry (im.start + pre.length)).sizePlain = raws[i].length :=
    hseal.sizePlain.trans (u32_of_lt (Nat.lt_of_le_of_lt hfits hsmall))
  have hsize : (c.entry (im.start + pre.length)).sizeStored = c.processedData.length := u32_of_lt hstored
  have hlength := hseal.length
  have hover := arch.cipher.overhead_le
  rw [hplain, hsize]
  unfold STORED_BLOCK_OVERHEAD
  dsimp only at hlength
  omega

/-- **The layout of every history.** -/
theorem Chain.layout (hK : K.Lawful) {arch : ArchiveWriter} (h : Chain K arch) (hoff : arch.filePosition < 2 ^ 64) :
    ∃ (im : Image K) (raws : List Bytes), Finished arch im raws ∧ Layout K arch im.headerBytes im.footer ∧
      im.footer.indexOffset = im.start + im.data.length ∧ im.footer.indexSizeStored = u32 im.sealedIndex.length := by
  obtain ⟨im, raws, hf, hraws, hdistinct, htiles⟩ := h.keeps hK
  obtain ⟨_, _, hmax⟩ := h.made hK
  have hsmall := Nat.lt_of_le_of_lt hmax (by decide : MAX_BLOCK_SIZE < 2 ^ 32)
  obtain ⟨warch, nonce, _, _, _, hpos, hseal⟩ := im.sealedBy
  obtain ⟨hoffset, hstored, ib, _, hplain⟩ := footer_of_sealIndex hseal
  have hend : im.footer.indexOffset = im.start + im.data.length := hoffset.trans hpos
  have hfits : im.footer.Fits := ⟨by rw [hend, ← hf.filePosition]; exact hoff, hstored ▸ u32_lt _, hplain ▸ u32_lt _⟩
  refine ⟨im, raws, hf, {
    header := by rw [hf.header]; exact im.headerVec
    lead := ?_
    tail := ?_
    blocks := ?_
    plain := fun b hb => (hf.block_sizes hsmall hraws hb).1
    stored := fun b hb => (hf.block_sizes hsmall hraws hb).2
    total := ?_
    distinct := hdistinct
    tiles := htiles }, hend, hstored⟩
  · rw [hf.bytes, Image.bytes, List.append_assoc, List.append_assoc]
    exact List.prefix_append _ _
  · have hdrop : im.bytes.drop (im.bytes.length - 29) = im.footer.serialize := by
      rw [Image.bytes, List.length_append, Footer.length_serialize, Nat.add_sub_cancel, List.drop_left]
    rw [hf.bytes, hdrop, Footer.deserialize_serialize hfits]
  · obtain ⟨processed, _, hblock, hdata, hlt⟩ := hf.region.sealing
    rw [hend, hblock, hdata, ← storedSize_eq hlt]
    exact contiguous_blockEntries _ _
  · obtain ⟨processed, hseals, hblock, _, _⟩ := hf.region.sealing
    rw [hf.total, hblock, blockEntries_sizePlain _ hseals, map_u32_eq.2 fun raw hraw =>
      Nat.lt_of_le_of_lt (hf.blockFits raw hraw) hsmall, List.length_flatten]

/-- **When the representation invariant holds**: in every history of archives whose lengths fit their fields, it holds
exactly of those whose sealed index is shorter than 4 GiB. -/
theorem represented_iff (hK : K.Lawful) {arch : ArchiveWriter} (h : Chain K arch) (hoff : arch.filePosition < 2 ^ 64) :
    Represented K arch ↔ arch.indexSize < 2 ^ 32 := by
  obtain ⟨im, raws, hf, hlayout, hend, hstored⟩ := h.layout hK hoff
  have hlength : arch.writer.bytes.length = im.footer.indexOffset + im.sealedIndex.length + 29 := by
    rw [hf.bytes, Image.length_bytes, hend]
  rw [hf.indexSize]
  constructor
  · rintro ⟨headerBytes, footer, hlayout', hlen⟩
    obtain rfl : im.footer = footer := Except.ok.inj (hlayout.tail.symm.trans hlayout'.tail)
    rw [hstored] at hlen
    exact u32_eq_iff.1 (by omega)
  · intro hlt
    exact ⟨im.headerBytes, im.footer, hlayout, by rw [hlength, hstored, u32_of_lt hlt]⟩

/-! ## A file of zeros -/

/-- The blocks of `n` zeros, a byte each. -/
def zeroBlocks : Nat → Nat → List BlockEntry
  | _, 0 => []
  | offset, n + 1 => plainBlock offset [0] :: zeroBlocks (offset + 1) n

def zerosIndex (n : Nat) : Index := ⟨[plainFile "a" 0 n], zeroBlocks 4 n, n⟩

/-- Crates that store, and encode `index` with the 53 bytes that MessagePack takes for a block of small numbers. -/
def Crates.encoding (index : Index) : Crates :=
  { Crates.tabled [Header.stored 1] [] with
    indexToVec := fun x => if x = index then some (List.replicate (53 * x.block.length) 0) else none
    indexFromSlice := fun _ => some index }

theorem Crates.encoding_lawful (index : Index) : (encoding index).Lawful where
  zstd h _ _ := by cases h; rfl
  xz h := by cases h; rfl
  deflate h := by cases h; rfl
  aes h := by cases h; simp [encoding, tabled]
  chacha h := by cases h; simp [encoding, tabled]
  header h := getElem?_of_findIdx? h
  index {i _} h := by
    by_cases heq : i = index
    · rw [heq]
      rfl
    · simp [encoding, heq] at h

/-- A single file, in a directory that cannot be scanned. -/
def Setup.single : Setup :=
  { Setup.plain [] with
    isDir := fun _ => false
    retrieveAllFiles := fun _ => .error .invalidPath }

/-- The file `src/a` in blocks of a byte. -/
def CompressArgs.single : CompressArgs :=
  { CompressArgs.plain 1 with
    pathToCompress := [.normal "src", .normal "a"]
    recursive := false }

def Os.zeros (n : Nat) : Os := .ofFiles [([.normal "src", .normal "a"], n, List.replicate n 0)]

theorem chunks_one {α : Type} : ∀ l : List α, chunks 1 l = l.map fun a => [a]
  | [] => by simp
  | a :: l => by
    have ih := chunks_one l
    unfold chunks at ih ⊢
    rw [fullChunks_long (by simp), leftover_long (by simp)]
    simpa using ih

/-- A raw block that is stored as it is. -/
def RawBlock.stored (raw : RawBlock) : ProcessedBlock where
  id := raw.id
  processedData := raw.rawData
  sizePlain := u32 raw.rawData.length
  isCompressed := false
  nonce := Vector.replicate 12 0
  checksum := Vector.ofFn fun i => raw.rawData.getD i 0

theorem spawnWorkers_stored (index : Index) (raws : List RawBlock) (archiveId : ArchiveId) :
    spawnWorkers (Crates.encoding index) raws (fun _ => Vector.replicate 12 0) .none archiveId .none 0
      = .ok (raws.map RawBlock.stored) := by
  refine Except.mapM_eq_ok.2 ((List.forall₂_map_right_iff).2 (List.forall₂_same.2 fun raw _ => ?_))
  have hsmaller : smaller raw.rawData raw.rawData = (raw.rawData, false) := if_neg (Nat.lt_irrefl _)
  show (Except.ok _ : Result ProcessedBlock) = _
  rw [hsmaller]
  rfl

theorem blockEntries_stored : ∀ offset id n : Nat,
    blockEntries offset ((numbered id (List.replicate n [0])).map RawBlock.stored) = zeroBlocks offset n
  | _, _, 0 => rfl
  | offset, id, n + 1 => by
    rw [List.replicate_succ, numbered, List.map_cons, blockEntries, zeroBlocks, blockEntries_stored _ _ n]
    rfl

theorem length_zeroBlocks : ∀ offset n : Nat, (zeroBlocks offset n).length = n
  | _, 0 => rfl
  | offset, n + 1 => by rw [zeroBlocks, List.length_cons, length_zeroBlocks _ n]

/-- Without compression and cipher an index is stored as it is encoded. -/
theorem sealIndex_stored {arch : ArchiveWriter} (hcompression : arch.header.compression = .none)
    (hcipher : arch.cipher = .none) {ib : Bytes} (hib : K.indexToVec arch.index = some ib) (nonce : Nonce) :
    ∃ footer, arch.sealIndex K nonce = .ok (ib, footer) := by
  have hkept : (if u32 ib.length > ib.length then (ib, true) else (ib, false)) = (ib, false) :=
    if_neg (Nat.not_lt.2 (Nat.mod_le _ _))
  have hengine : CompressingEngine.new arch.header.compression arch.header.compressionLevel
      = .ok (⟨.none, arch.header.compressionLevel, rfl⟩ : CompressingEngine K) := by rw [hcompression]; rfl
  have hcompress : CompressingEngine.compress (⟨.none, arch.header.compressionLevel, rfl⟩ : CompressingEngine K) ib
      = .ok ib := rfl
  have hencrypt : arch.encryptBlock K ib (.index nonce) = .ok ib := by
    unfold ArchiveWriter.encryptBlock
    rw [hcipher]
  refine ⟨⟨arch.filePosition, u32 ib.length, u32 ib.length, false, nonce⟩, ?_⟩
  unfold ArchiveWriter.sealIndex
  rw [hib, hengine]
  simp only [Option.elim_some, Except.ok_bind, hcompress, hkept, hencrypt]

/-- What is read of `n` zeros. -/
def Source.zeros (n : Nat) : Source := ⟨[.normal "a"], ⟨.file, n, 0, 0o644⟩, none, List.replicate n 0⟩

theorem observe_zeros (n : Nat) :
    observe (Os.zeros n) [.normal "src"] 1 [.normal "src", .normal "a"] = .ok (Source.zeros n) := by
  have hread : ((OpenFile.ofContent (List.replicate n 0)).reads 1).flatten = List.replicate n 0 := by
    simp [OpenFile.ofContent, flatten_chunks]
  show (Except.ok ⟨_, _, _, ((OpenFile.ofContent (List.replicate n 0)).reads 1).flatten⟩ : Except Halt Source) = _
  rw [hread]
  rfl

theorem entries_zeros (n : Nat) : Source.entries 0 [Source.zeros n] = [plainFile "a" 0 n] := rfl

theorem stream_zeros (n : Nat) : Source.stream [Source.zeros n] = List.replicate n 0 := by
  simp [Source.stream, Source.zeros]

theorem chunks_zeros (n : Nat) : chunks 1 (Source.stream [Source.zeros n]) = List.replicate n [0] := by
  rw [stream_zeros, chunks_one, List.map_replicate]

/-- The index that a compression of `n` zeros makes. -/
theorem index_zeros (n : Nat) : ⟨Source.entries 0 [Source.zeros n], blockEntries (4 + ([] : Bytes).length)
    ((numbered 0 (chunks 1 (Source.stream [Source.zeros n]))).map RawBlock.stored),
    (Source.stream [Source.zeros n]).length⟩ = zerosIndex n := by
  rw [entries_zeros, chunks_zeros, blockEntries_stored, stream_zeros, List.length_replicate]
  rfl

/-- What is stored is the zeros. -/
theorem storedSize_zeros (n : Nat) :
    storedSize ((numbered 0 (chunks 1 (Source.stream [Source.zeros n]))).map RawBlock.stored) ≤ n := by
  have hdata : ((numbered 0 (chunks 1 (Source.stream [Source.zeros n]))).map RawBlock.stored).flatMap
      ProcessedBlock.processedData = List.replicate n 0 := by
    rw [List.flatMap_def, List.map_map]
    exact (congrArg List.flatten (numbered_rawData _ _)).trans ((flatten_chunks _ _).trans (stream_zeros n))
  have hstored := storedSize_le ((numbered 0 (chunks 1 (Source.stream [Source.zeros n]))).map RawBlock.stored)
  rwa [hdata, List.length_replicate] at hstored

theorem workers_zeros (n : Nat) : spawnWorkers (Crates.encoding (zerosIndex n))
    (numbered 0 (chunks 1 (Source.stream [Source.zeros n]))) (Env.plain (Os.zeros n)).draws.nonces .none
    (CompressArgs.single.header Setup.single).archiveId .none 0 =
      .ok ((numbered 0 (chunks 1 (Source.stream [Source.zeros n]))).map RawBlock.stored) :=
  spawnWorkers_stored _ _ _

/-- The index of `n` zeros is sealed to 53 bytes for each. -/
theorem seal_zeros {n : Nat} {arch : ArchiveWriter} (nonce : Nonce)
    (hheader : arch.header = CompressArgs.single.header Setup.single) (hcipher : arch.cipher = .none)
    (hindex : arch.index = zerosIndex n) :
    ∃ footer, arch.sealIndex (Crates.encoding (zerosIndex n)) nonce = .ok (List.replicate (53 * n) 0, footer) := by
  refine sealIndex_stored (by rw [hheader]; rfl) hcipher ?_ nonce
  rw [hindex]
  show (if zerosIndex n = zerosIndex n then some (List.replicate (53 * (zeroBlocks 4 n).length) 0) else none) = _
  rw [if_pos rfl, length_zeroBlocks]

theorem observe_all_zeros (n : Nat) : List.Forall₂ (fun p src => observe (Os.zeros n) [.normal "src"] 1 p = .ok src)
    [[.normal "src", .normal "a"]] [Source.zeros n] := .cons (observe_zeros n) .nil

theorem queue_single : queueFiles Setup.single CompressArgs.single.pathToCompress CompressArgs.single.recursive
    = .ok ([.normal "src"], [[.normal "src", .normal "a"]]) := rfl

theorem compress_zeros (n : Nat) : ∃ arch, initializeCompression (Crates.encoding (zerosIndex n)) Setup.single
    (Env.plain (Os.zeros n)) CompressArgs.single = .ok arch := by
  have hready : Ready (Crates.encoding (zerosIndex n)) Setup.single CompressArgs.single :=
    ⟨rfl, rfl, rfl, rfl, ⟨.none, rfl⟩⟩
  have hvec : (Crates.encoding (zerosIndex n)).headerToVec (CompressArgs.single.header Setup.single) = some [] := rfl
  refine initializeCompression_of_sealed hready rfl hvec queue_single (observe_all_zeros n) (workers_zeros n)
    fun arch hheader hcipher hi => ?_
  obtain ⟨footer, hr⟩ := seal_zeros (Env.plain (Os.zeros n)).draws.indexNonce hheader hcipher (hi.trans (index_zeros n))
  exact ⟨_, hr⟩

/-- **A file of `n` zeros, a byte in each block**, makes an archive whose index takes 53 bytes for each. -/
theorem exists_zeros (n : Nat) : ∃ arch : ArchiveWriter, Chain (Crates.encoding (zerosIndex n)) arch ∧
    arch.filePosition ≤ 4 + n ∧ arch.indexSize = 53 * n := by
  have hK : (Crates.encoding (zerosIndex n)).Lawful := Crates.encoding_lawful _
  have hstill : (Os.zeros n).Still := Os.ofFiles_still (by simp)
  obtain ⟨arch, hrun⟩ := compress_zeros n
  have hchain : Chain (Crates.encoding (zerosIndex n)) arch := .compress (Nat.le_refl 1) (by decide) hstill
    (fun _ _ hfiles => by cases hfiles) hrun
  -- the archive that was made
  obtain ⟨_, root', queue', _, new, srcs, processed, _, hqueue', hnew, hobs', hmade⟩ := initializeCompression_ok hrun
  obtain ⟨rfl, rfl⟩ := Prod.mk.inj (Except.ok.inj (queue_single.symm.trans hqueue'))
  obtain rfl : [Source.zeros n] = srcs :=
    Except.ok.inj ((Except.mapM_eq_ok.2 (observe_all_zeros n)).symm.trans (Except.mapM_eq_ok.2 hobs'))
  obtain ⟨headerBytes, hvec, hkey, hheader, hempty, hposition, hend, hbytes⟩ := ArchiveWriter.new_ok hnew
  obtain rfl : [] = headerBytes := Option.some.inj hvec
  have hcipher : new.cipher = .none := (Except.ok.inj hkey).symm
  have hfour : new.filePosition = 4 := by rw [hposition, hend, hbytes]; rfl
  have hworked := hmade.workers
  rw [hempty, hheader, hcipher] at hworked
  obtain rfl := Except.ok.inj ((workers_zeros n).symm.trans hworked)
  obtain ⟨mid, hwritten, hfinal⟩ := hmade.written
  obtain ⟨_, _, _, _, harch, _, _⟩ := finalize_ok hfinal
  have hi : arch.index = zerosIndex n := by
    rw [hmade.index_eq, hempty, hfour, List.nil_append, List.nil_append, Nat.zero_add]
    exact index_zeros n
  refine ⟨arch, hchain, ?_, ?_⟩
  · have hmid := (writeBlocks_ok hwritten).filePosition
    rw [hfour] at hmid
    rw [harch]
    exact hmid.trans_le (Nat.add_le_add_left (storedSize_zeros n) 4)
  · obtain ⟨im, raws, hf, _⟩ := hchain.keeps hK
    obtain ⟨warch, nonce, hwheader, hwcipher, hwindex, _, hsealed⟩ := im.sealedBy
    obtain ⟨footer, hr⟩ := seal_zeros (n := n) nonce (by rw [hwheader, ← hf.header, hmade.same.1, hheader])
      (by rw [hwcipher, ← hf.cipher, hmade.same.2, hcipher]) (by rw [hwindex, ← hf.index, hi])
    obtain ⟨hsealedIndex, _⟩ := Prod.mk.inj (Except.ok.inj (hr.symm.trans hsealed))
    rw [hf.indexSize, ← hsealedIndex, List.length_replicate]

/-- Three zeros in blocks of a byte are represented. -/
theorem represented_iff_small : ∃ arch : ArchiveWriter, Chain (Crates.encoding (zerosIndex 3)) arch ∧
    Represented (Crates.encoding (zerosIndex 3)) arch := by
  obtain ⟨arch, hchain, hposition, hsize⟩ := exists_zeros 3
  exact ⟨arch, hchain, (represented_iff (Crates.encoding_lawful _) hchain (by omega)).2 (by omega)⟩

/-- **The footer cannot hold the size of a large index**: 128 MiB in blocks of a byte make a file that does not end
where the footer says. -/
theorem large_index_cut : ∃ arch : ArchiveWriter, Chain (Crates.encoding (zerosIndex (2 ^ 27))) arch ∧
    ¬ Represented (Crates.encoding (zerosIndex (2 ^ 27))) arch := by
  obtain ⟨arch, hchain, hposition, hsize⟩ := exists_zeros (2 ^ 27)
  refine ⟨arch, hchain, ?_⟩
  obtain ⟨im, raws, hf, hlayout, hend, hstored⟩ := hchain.layout (Crates.encoding_lawful _) (by omega)
  rintro ⟨headerBytes, footer, hlayout', hlen⟩
  obtain rfl : im.footer = footer := Except.ok.inj (hlayout.tail.symm.trans hlayout'.tail)
  rw [hf.bytes, Image.length_bytes, hend, hstored] at hlen
  have hlarge := hf.indexSize
  have hcut := u32_lt im.sealedIndex.length
  omega

end Cryo
