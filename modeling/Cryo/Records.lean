import Cryo.History

/-!
# What the records say

The size of an entry is what `lstat` said before the file was read, its offset counts what was really read, and the
lengths of a block are narrowed to 32 bits. None of this is checked afterwards.

* `ranges_exact_iff`: the ranges that a run records are those of the bytes it read exactly when every file gave as many
  bytes as `lstat` said; `shrinking_file_overlaps`: a run where one did not.
* `sizes_agree_iff`: the sizes in a new archive add up exactly when the block size is not zero, or nothing was to be
  read, and no length needs more than 32 bits; `zero_block_size_loses`: an archive with a block size of zero.
-/

namespace Cryo

open Posix Bytes Chunk

variable {K : Crates}

/-- The index that a run leaves. -/
theorem Run.index_eq {draws : Draws} {arch arch' : ArchiveWriter} {old : List FileEntry} {pos bs : Nat}
    {srcs : List Source} {processed : List ProcessedBlock}
    (hrun : Run K draws arch old pos bs srcs processed arch') :
    arch'.index = ⟨old ++ Source.entries pos srcs, arch.index.block ++ blockEntries arch.filePosition processed,
      pos + (Source.stream srcs).length⟩ := by
  obtain ⟨mid, hblocks, hfinal⟩ := hrun.written
  obtain ⟨_, _, _, _, rfl, _, _⟩ := finalize_ok hfinal
  show (mid.closed _ _).index = _
  rw [← (writeBlocks_ok hblocks).block]
  rfl

/-! ## Ranges -/

variable (K) in
/-- A compression or an append returned: the entries and the stream position it started from, its block size, and the
paths it read. -/
inductive Returned (os : Os) : List FileEntry → Nat → Nat → Path → List Path → ArchiveWriter → Prop
  | compress {setup : Setup} {env : Env} {args : CompressArgs} {root : Path} {queue : List Path}
      {arch : ArchiveWriter} :
    env.os = os → queueFiles setup args.pathToCompress args.recursive = .ok (root, queue) →
    initializeCompression K setup env args = .ok arch → Returned os [] 0 args.bs root queue arch
  | append {setup : AppendSetup} {env : Env} {bytes : Bytes} {args : AppendArgs} {structs : FileStructs} {root : Path}
      {queue : List Path} {arch : ArchiveWriter} :
    env.os = os → retrieve K bytes args.archivePath Limits.default setup.prompts args.confirm = .ok structs →
    queueAppend setup structs.index.files args.fileToAppend = .ok (root, queue) →
    appendFile K setup env bytes args = .ok arch →
    Returned os structs.index.files structs.index.totalStreamSize structs.header.blockSize root queue arch

variable {os : Os} {old : List FileEntry} {pos bs : Nat} {root : Path} {queue : List Path} {arch' : ArchiveWriter}

/-- A command that returned made a run. -/
theorem Returned.run (h : Returned K os old pos bs root queue arch') : ∃ draws arch srcs processed,
    List.Forall₂ (fun p src => observe os root bs p = .ok src) queue srcs ∧
      Run K draws arch old pos bs srcs processed arch' := by
  cases h with
  | compress hos hqueue h =>
    obtain ⟨_, root', queue', _, arch, srcs, processed, _, hqueue', _, hobs, hrun⟩ := initializeCompression_ok h
    cases hqueue.symm.trans hqueue'
    exact ⟨_, arch, srcs, processed, hos ▸ hobs, hrun⟩
  | append hos hload hqueue h =>
    obtain ⟨structs', root', queue', srcs, processed, hload', hqueue', hobs, hrun⟩ := appendFile_ok h
    cases hload.symm.trans hload'
    cases hqueue.symm.trans hqueue'
    exact ⟨_, _, srcs, processed, hos ▸ hobs, hrun⟩

/-- The range of each regular file is what was read of it, and the ranges follow each other. -/
structure Exact (stream : Bytes) (srcs : List Source) (new : List FileEntry) : Prop where
  ranges : ∀ (i : Nat) (src : Source) (e : FileEntry), srcs[i]? = some src → new[i]? = some e → src.isFile = true →
    e.streamOffset + e.size ≤ stream.length ∧ slice e.streamOffset e.size stream = src.data
  disjoint : new.Pairwise fun e e' => e.streamOffset + e.size ≤ e'.streamOffset

theorem pairwise_entries : ∀ {srcs : List Source} {pos : Nat}, (∀ src ∈ srcs, src.Unchanged) →
    (Source.entries pos srcs).Pairwise fun e e' => e.streamOffset + e.size ≤ e'.streamOffset
  | [], _, _ => .nil
  | src :: srcs, pos, h => by
    have hsize : (src.entry pos).size = src.data.length := (h src List.mem_cons_self).symm
    refine .cons (fun e he => ?_) (pairwise_entries fun x hx => h x (List.mem_cons_of_mem _ hx))
    have := Source.le_streamOffset he
    rw [Source.entry_streamOffset, hsize]
    exact this

/-- Entries laid out behind `pre` are exact when every source is as long as its entry says. -/
theorem exact_iff {pre : Bytes} {srcs : List Source} (hobs : List.Forall₂ (fun p src => observe os root bs p = .ok src)
    queue srcs) : Exact (pre ++ Source.stream srcs) srcs (Source.entries pre.length srcs) ↔
      ∀ src ∈ srcs, src.isFile = true → src.data.length = src.metadata.size := by
  have hat : ∀ {i : Nat} {src : Source}, srcs[i]? = some src → src.isFile = true →
      ∃ e, (Source.entries pre.length srcs)[i]? = some e ∧
      ((e.streamOffset + e.size ≤ (pre ++ Source.stream srcs).length ∧
        slice e.streamOffset e.size (pre ++ Source.stream srcs) = src.data) ↔ src.data.length = src.metadata.size) := by
    intro i src hi hfile
    obtain ⟨a, b, hs, he⟩ := Source.locate pre.length hi
    have hsize : (src.entry (pre.length + a.length)).size = src.metadata.size := by simp [Source.entry, hfile]
    refine ⟨_, he, ?_⟩
    rw [hs, ← List.append_assoc, ← List.append_assoc, hsize]
    exact slice_eq_mid_iff (by simp)
  constructor
  · intro h src hsrc hfile
    obtain ⟨i, hi⟩ := List.mem_iff_getElem?.1 hsrc
    obtain ⟨e, he, hiff⟩ := hat hi hfile
    exact hiff.1 (h.ranges i src e hi he hfile)
  · intro h
    refine ⟨fun i src e hi he hfile => ?_, pairwise_entries ((unchanged_iff hobs).2 h)⟩
    obtain ⟨e', he', hiff⟩ := hat hi hfile
    cases he.symm.trans he'
    exact hiff.2 (h src (List.mem_of_getElem? hi) hfile)

/-- **When the recorded ranges are exact**: every regular file gave as many bytes as `lstat` said. The stream is what
was there before and the raw blocks that the new blocks seal. -/
theorem ranges_exact_iff (hK : K.Lawful) (h : Returned K os old pos bs root queue arch') :
    ∃ srcs new raws before offset processed,
      List.Forall₂ (fun p src => observe os root bs p = .ok src) queue srcs ∧ arch'.index.files = old ++ new ∧
      arch'.index.block = before ++ blockEntries offset processed ∧
      List.Forall₂ (Seals K arch'.header.compression arch'.cipher arch'.header.archiveId)
        (numbered before.length raws) processed ∧
      ∀ pre : Bytes, pre.length = pos → (Exact (pre ++ raws.flatten) srcs new ↔
        ∀ src ∈ srcs, src.isFile = true → src.data.length = src.metadata.size) := by
  obtain ⟨draws, arch, srcs, processed, hobs, hrun⟩ := h.run
  refine ⟨srcs, Source.entries pos srcs, chunks bs (Source.stream srcs), arch.index.block, arch.filePosition, processed,
    hobs, by rw [hrun.index_eq], by rw [hrun.index_eq], ?_, fun pre hpre => ?_⟩
  · rw [hrun.same.1, hrun.same.2]
    exact spawnWorkers_seals hK hrun.workers
  · rw [flatten_chunks, ← hpre]
    exact exact_iff hobs

/-- The directory `src` with the files `a` and `b`. -/
def twoFiles (sizeA : Nat) (a : Bytes) (sizeB : Nat) (b : Bytes) : Os :=
  .ofFiles [([.normal "src", .normal "a"], sizeA, a), ([.normal "src", .normal "b"], sizeB, b)]

def pathsAB : List Path := [[.normal "src", .normal "a"], [.normal "src", .normal "b"]]

/-- Files that do not change have exact ranges. -/
theorem ranges_exact_iff_still :
    let K := Crates.tabled [Header.stored 2]
      [⟨[plainFile "a" 0 3, plainFile "b" 3 2], [plainBlock 4 [1, 2], plainBlock 6 [3, 4], plainBlock 8 [5]], 5⟩]
    ∃ (arch' : ArchiveWriter) (srcs : List Source) (new : List FileEntry) (raws : List Bytes),
      Returned K (twoFiles 3 [1, 2, 3] 2 [4, 5]) [] 0 2 [.normal "src"] pathsAB arch' ∧
      arch'.index.files = [] ++ new ∧ Exact ([] ++ raws.flatten) srcs new := by
  intro K
  obtain ⟨arch', h, _⟩ := Except.exists_of_toOption_map (f := fun _ => ()) (b := ())
    (x := initializeCompression K (Setup.plain pathsAB) (Env.plain (twoFiles 3 [1, 2, 3] 2 [4, 5]))
      (CompressArgs.plain 2)) (by decide +kernel)
  have hret : Returned K (twoFiles 3 [1, 2, 3] 2 [4, 5]) [] 0 2 [.normal "src"] pathsAB arch' := .compress rfl rfl h
  obtain ⟨srcs, new, raws, _, _, _, hobs, hnew, _, _, hiff⟩ := ranges_exact_iff (Crates.tabled_lawful _ _) hret
  have hsteady : Steady (twoFiles 3 [1, 2, 3] 2 [4, 5]) 2 := ⟨by decide, Os.ofFiles_still (by decide)⟩
  exact ⟨arch', srcs, new, raws, hret, hnew, (hiff [] rfl).2 ((unchanged_iff hobs).1 (hsteady.unchanged hobs))⟩

/-- **A file that was truncated after `lstat`**: its range reaches into the next file, and is decoded with its bytes. -/
theorem shrinking_file_overlaps :
    let K := Crates.tabled [Header.stored 512] [⟨[plainFile "a" 0 3, plainFile "b" 1 2], [plainBlock 4 [1, 2, 3]], 3⟩]
    let os := twoFiles 3 [1] 2 [2, 3]
    ∃ arch', Returned K os [] 0 512 [.normal "src"] pathsAB arch' ∧
      arch'.index.files = [plainFile "a" 0 3, plainFile "b" 1 2] ∧
      (observe os [.normal "src"] 512 [.normal "src", .normal "a"]).map Source.data = .ok [1] ∧
      (arch'.reader [] [] Limits.default).decodeEntry K (plainFile "a" 0 3) = .ok [1, 2, 3] := by
  intro K os
  obtain ⟨arch', h, hshown⟩ := Except.exists_of_toOption_map
    (f := fun arch => (arch.index.files, (arch.reader [] [] Limits.default).decodeEntry K (plainFile "a" 0 3)))
    (b := ([plainFile "a" 0 3, plainFile "b" 1 2], .ok [1, 2, 3]))
    (x := initializeCompression K (Setup.plain pathsAB) (Env.plain os) (CompressArgs.plain 512)) (by decide +kernel)
  obtain ⟨hfiles, hdecode⟩ := Prod.mk.inj hshown
  exact ⟨arch', .compress rfl rfl h, hfiles, by decide +kernel, hdecode⟩

/-! ## Sizes -/

/-- The sizes in an index add up, and those of its blocks are the lengths of the raw and the stored blocks. -/
structure Tallied (index : Index) (raws : List Bytes) (stored : List Bytes) : Prop where
  files : ((index.files.filter (·.ftype = .file)).map FileEntry.size).sum = index.totalStreamSize
  blocks : (index.block.map BlockEntry.sizePlain).sum = index.totalStreamSize
  plain : index.block.map BlockEntry.sizePlain = raws.map List.length
  stored : index.block.map BlockEntry.sizeStored = stored.map List.length

theorem blockEntries_sizeStored : ∀ (offset : Nat) (bs : List ProcessedBlock),
    (blockEntries offset bs).map BlockEntry.sizeStored = bs.map fun b => u32 b.processedData.length
  | _, [] => rfl
  | offset, b :: bs => by
    rw [blockEntries, List.map_cons, List.map_cons, blockEntries_sizeStored _ bs]
    rfl

theorem blockEntries_sizePlain {compression : Compressor} {cipher : Cipher} {archiveId : ArchiveId} :
    ∀ {n : Nat} {raws : List Bytes} {bs : List ProcessedBlock} (offset : Nat),
    List.Forall₂ (Seals K compression cipher archiveId) (numbered n raws) bs →
    (blockEntries offset bs).map BlockEntry.sizePlain = raws.map fun raw => u32 raw.length
  | _, [], _, _, .nil => rfl
  | n, raw :: raws, b :: bs, offset, .cons hb hbs => by
    rw [blockEntries, List.map_cons, List.map_cons, blockEntries_sizePlain _ hbs]
    exact congrArg (· :: _) hb.sizePlain

/-- Narrowing keeps all numbers of a list exactly when they fit. -/
theorem map_u32_eq {α : Type} {f : α → Nat} : ∀ {l : List α},
    (l.map fun a => u32 (f a)) = l.map f ↔ ∀ a ∈ l, f a < 2 ^ 32
  | [] => by simp
  | a :: l => by
    rw [List.map_cons, List.map_cons, List.cons.injEq, map_u32_eq, u32_eq_iff, List.forall_mem_cons]

/-- The sizes of the entries of unchanged sources. -/
theorem sum_sizes : ∀ (srcs : List Source) (pos : Nat),
    ((((Source.entries pos srcs).filter (·.ftype = .file)).map FileEntry.size).sum)
      = ((srcs.filter (·.isFile)).map fun src => src.metadata.size).sum
  | [], _ => rfl
  | src :: srcs, pos => by
    have ih := sum_sizes srcs (pos + src.data.length)
    rw [Source.entries]
    cases hf : src.isFile with
    | true =>
      have hft : (src.entry pos).ftype = .file := by simpa [Source.isFile] using hf
      rw [List.filter_cons_of_pos (p := fun e : FileEntry => e.ftype = .file) (decide_eq_true hft),
        List.filter_cons_of_pos hf, List.map_cons, List.map_cons,
        List.sum_cons, List.sum_cons, ih]
      simp [Source.entry, hf]
    | false =>
      have hft : (src.entry pos).ftype ≠ .file := by simpa [Source.isFile] using hf
      rw [List.filter_cons_of_neg (p := fun e : FileEntry => e.ftype = .file) (by rw [decide_eq_true_eq]; exact hft),
        List.filter_cons_of_neg (by simp [hf]), ih]

/-- Their total, when every file gave as many bytes as `lstat` said. -/
theorem length_stream : ∀ {srcs : List Source}, (∀ src ∈ srcs, src.Unchanged) →
    (Source.stream srcs).length = ((srcs.filter (·.isFile)).map fun src => src.metadata.size).sum
  | [], _ => rfl
  | src :: srcs, h => by
    have hsrc := h src List.mem_cons_self
    have ih := length_stream fun x hx => h x (List.mem_cons_of_mem _ hx)
    unfold Source.Unchanged Source.entry at hsrc
    rw [Source.stream_cons, List.length_append, ih]
    cases hf : src.isFile with
    | true => rw [List.filter_cons_of_pos hf, List.map_cons, List.sum_cons, hsrc, if_pos hf]
    | false => rw [List.filter_cons_of_neg (by simp [hf]), hsrc, if_neg (by simp [hf]), Nat.zero_add]

/-- The stored lengths, from the raw blocks. -/
theorem lengths_processed (hK : K.Lawful) {nonces : Nat → Nonce} {cipher : Cipher} {archiveId : ArchiveId}
    {compression : Compressor} {level : Int} {engine : CompressingEngine K}
    (hengine : CompressingEngine.new compression level = .ok engine) : ∀ {n : Nat} {raws : List Bytes}
    {bs : List ProcessedBlock}, spawnWorkers K (numbered n raws) nonces cipher archiveId compression level = .ok bs →
    (bs.map fun b => b.processedData.length) = raws.map fun raw => engine.keptLength raw + cipher.overhead := by
  intro n raws bs h
  replace h := spawnWorkers_ok h
  induction raws generalizing n bs with
  | nil => cases h; rfl
  | cons raw raws ih =>
    cases h with
    | cons hb hbs =>
      obtain ⟨engine', hengine', hb⟩ := hb
      cases hengine.symm.trans hengine'
      rw [List.map_cons, List.map_cons, ih hbs, length_processBlock hK hb]

/-- **When the sizes in a new archive add up**: blocks are not empty or nothing was to be read, and no length of a raw
or a stored block needs more than 32 bits. -/
theorem sizes_agree_iff (hK : K.Lawful) {setup : Setup} {env : Env} {args : CompressArgs} (hstill : env.os.Still)
    (h : initializeCompression K setup env args = .ok arch') :
    ∃ engine root queue srcs offset processed,
      CompressingEngine.new (K := K) args.compression args.compressionLevel = .ok engine ∧
      queueFiles setup args.pathToCompress args.recursive = .ok (root, queue) ∧
      List.Forall₂ (fun p src => observe env.os root args.bs p = .ok src) queue srcs ∧
      arch'.index.block = blockEntries offset processed ∧
      List.Forall₂ (Seals K arch'.header.compression arch'.cipher arch'.header.archiveId)
        (numbered 0 (chunks args.bs (Source.stream srcs))) processed ∧
      (Tallied arch'.index (chunks args.bs (Source.stream srcs)) (processed.map ProcessedBlock.processedData) ↔
        (0 < args.bs ∨ ∀ src ∈ srcs, src.isFile = true → src.metadata.size = 0) ∧
        ∀ raw ∈ chunks args.bs (Source.stream srcs),
          raw.length < 2 ^ 32 ∧ engine.keptLength raw + arch'.cipher.overhead < 2 ^ 32) := by
  obtain ⟨engine, root, queue, faults, arch, srcs, processed, hengine, hqueue, hnew, hobs, hrun⟩ :=
    initializeCompression_ok h
  obtain ⟨_, _, _, hheader, hindex, _⟩ := ArchiveWriter.new_ok hnew
  have hidx := hrun.index_eq
  rw [hindex] at hidx
  have hworkers := hrun.workers
  rw [hindex] at hworkers
  have hseals := spawnWorkers_seals hK hworkers
  have hlens := lengths_processed hK (by rw [hheader]; exact hengine) hworkers
  refine ⟨engine, root, queue, srcs, arch.filePosition, processed, hengine, hqueue, hobs, by rw [hidx]; rfl, ?_, ?_⟩
  · rw [hrun.same.1, hrun.same.2]; exact hseals
  rw [hrun.same.2, hidx]
  have hplain : ((blockEntries arch.filePosition processed).map BlockEntry.sizePlain
      = (chunks args.bs (Source.stream srcs)).map List.length) ↔
      ∀ raw ∈ chunks args.bs (Source.stream srcs), raw.length < 2 ^ 32 := by
    rw [blockEntries_sizePlain _ hseals]
    exact map_u32_eq
  have hstored : ((blockEntries arch.filePosition processed).map BlockEntry.sizeStored
      = (processed.map ProcessedBlock.processedData).map List.length) ↔
      ∀ raw ∈ chunks args.bs (Source.stream srcs), engine.keptLength raw + arch.cipher.overhead < 2 ^ 32 := by
    rw [blockEntries_sizeStored, List.map_map]
    refine map_u32_eq.trans ?_
    have := congrArg (fun l : List Nat => ∀ x ∈ l, x < 2 ^ 32) hlens
    simpa [List.forall_mem_map] using this
  constructor
  · intro ht
    refine ⟨?_, fun raw hraw => ⟨hplain.1 ht.plain raw hraw, hstored.1 ht.stored raw hraw⟩⟩
    rcases hrun.feedable with hpos | hempty
    · exact .inl hpos
    · have hnil : Source.stream srcs = [] := List.flatMap_eq_nil_iff.2 hempty
      have hsum := ht.files
      rw [List.nil_append, sum_sizes, hnil] at hsum
      refine .inr fun src hsrc hfile => ?_
      exact List.sum_eq_zero_iff_forall_eq_nat.1 hsum _ (List.mem_map_of_mem (List.mem_filter.2 ⟨hsrc, hfile⟩))
  · rintro ⟨hread, hlt⟩
    have hp := hplain.2 fun raw hraw => (hlt raw hraw).1
    refine ⟨?_, ?_, hp, hstored.2 fun raw hraw => (hlt raw hraw).2⟩
    · rw [List.nil_append, sum_sizes, Nat.zero_add]
      rcases hrun.feedable with hpos | hempty
      · exact (length_stream (Steady.unchanged ⟨hpos, hstill⟩ hobs)).symm
      rcases hread with hpos | hzero
      · exact (length_stream (Steady.unchanged ⟨hpos, hstill⟩ hobs)).symm
      · have hnil : Source.stream srcs = [] := List.flatMap_eq_nil_iff.2 hempty
        rw [hnil, List.length_nil, List.sum_eq_zero_iff_forall_eq_nat]
        intro n hn
        obtain ⟨src, hsrc, rfl⟩ := List.mem_map.1 hn
        obtain ⟨hsrc, hfile⟩ := List.mem_filter.1 hsrc
        exact hzero src hsrc hfile
    · dsimp only
      rw [List.nil_append, hp, ← List.length_flatten, flatten_chunks, Nat.zero_add]

theorem CompressingEngine.keptLength_le (e : CompressingEngine K) (raw : Bytes) : e.keptLength raw ≤ raw.length := by
  unfold keptLength
  split
  · exact Nat.min_le_right _ _
  · exact Nat.le_refl _

/-- Five bytes in blocks of two add up. -/
theorem sizes_agree_iff_small :
    let K := Crates.tabled [Header.stored 2]
      [⟨[plainFile "a" 0 3, plainFile "b" 3 2], [plainBlock 4 [1, 2], plainBlock 6 [3, 4], plainBlock 8 [5]], 5⟩]
    ∃ (arch' : ArchiveWriter) (raws stored : List Bytes), initializeCompression K (Setup.plain pathsAB)
      (Env.plain (twoFiles 3 [1, 2, 3] 2 [4, 5])) (CompressArgs.plain 2) = .ok arch' ∧
      Tallied arch'.index raws stored := by
  intro K
  obtain ⟨arch', h, _⟩ := Except.exists_of_toOption_map (f := fun _ => ()) (b := ())
    (x := initializeCompression K (Setup.plain pathsAB) (Env.plain (twoFiles 3 [1, 2, 3] 2 [4, 5]))
      (CompressArgs.plain 2)) (by decide +kernel)
  obtain ⟨engine, _, _, srcs, _, processed, _, _, _, _, _, hiff⟩ :=
    sizes_agree_iff (Crates.tabled_lawful _ _) (Os.ofFiles_still (by decide)) h
  refine ⟨arch', _, _, h, hiff.2 ⟨.inl (by decide), fun raw hraw => ?_⟩⟩
  have h1 : raw.length ≤ 2 := (length_of_mem_chunks (by decide) hraw).2
  have h2 := engine.keptLength_le raw
  have h3 := arch'.cipher.overhead_le
  omega

/-- **A block size of zero is accepted and loses the data**: a file of one byte, and an empty stream. -/
theorem zero_block_size_loses :
    let K := Crates.tabled [Header.stored 0] [⟨[plainFile "a" 0 1], [], 0⟩]
    let os := Os.ofFiles [([.normal "src", .normal "a"], 1, [7])]
    os.Still ∧ ∃ arch', initializeCompression K (Setup.plain [[.normal "src", .normal "a"]]) (Env.plain os)
      (CompressArgs.plain 0) = .ok arch' ∧
      ((arch'.index.files.filter (·.ftype = .file)).map FileEntry.size).sum ≠ arch'.index.totalStreamSize := by
  intro K os
  refine ⟨Os.ofFiles_still (by decide), ?_⟩
  obtain ⟨arch', h, hindex⟩ := Except.exists_of_toOption_map (f := ArchiveWriter.index)
    (b := ⟨[plainFile "a" 0 1], [], 0⟩) (x := initializeCompression K (Setup.plain [[.normal "src", .normal "a"]])
      (Env.plain os) (CompressArgs.plain 0)) (by decide +kernel)
  refine ⟨arch', h, ?_⟩
  rw [hindex]
  decide

end Cryo
