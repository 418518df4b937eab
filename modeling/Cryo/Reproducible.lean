import Cryo.Tamper

/-!
# What is drawn is all that differs

Two compressions with the same arguments that see the same (`SameInput`) may differ in the schedule of their threads, in
how the files come in pieces, and in what they draw: the salt, the archive id, the nonces, the password. Only what is
drawn shows in the archives. A block is cut and compressed alike; the headers may move it, and what is drawn may change
its nonce and, under a cipher, its bytes (`Alike`).

* `compress_reproducible`: two calls that returned `Ok`, each in its schedule.
-/

namespace Cryo

open Posix Bytes Chunk

variable {K : Crates}

/-- The same paths, and the same found at each. -/
structure SameInput (setup setup' : Setup) (os os' : Os) (args : CompressArgs) : Prop where
  queue : queueFiles setup' args.pathToCompress args.recursive = queueFiles setup args.pathToCompress args.recursive
  seen : ∀ root queue, queueFiles setup args.pathToCompress args.recursive = .ok (root, queue) →
    ∀ p ∈ queue, observe os' root args.bs p = observe os root args.bs p

/-- Entries of one raw block in archives with headers of these lengths. -/
structure Alike (n n' : Nat) (e e' : BlockEntry) : Prop where
  offset : e'.offset + n = e.offset + n'
  sizeStored : e'.sizeStored = e.sizeStored
  sizePlain : e'.sizePlain = e.sizePlain
  isCompressed : e'.isCompressed = e.isCompressed
  checksum : e'.checksum = e.checksum

/-! ## One block -/

section
variable {cipher cipher' : Cipher} {archiveId archiveId' : ArchiveId} {engine : CompressingEngine K}
  {nonce nonce' : Nonce} {raw : RawBlock} {b b' : ProcessedBlock}

/-- Processed from one raw block, with one engine. -/
def Twins (K : Crates) (cipher cipher' : Cipher) (archiveId archiveId' : ArchiveId) (b b' : ProcessedBlock) : Prop :=
  ∃ (engine : CompressingEngine K) (nonce nonce' : Nonce) (raw : RawBlock),
    processBlock cipher archiveId engine nonce raw = .ok b ∧ processBlock cipher' archiveId' engine nonce' raw = .ok b'

theorem Twins.entry (hK : K.Lawful) (h : Twins K cipher cipher' archiveId archiveId' b b')
    (hoverhead : cipher'.overhead = cipher.overhead) {n n' offset offset' : Nat} (hoffset : offset' + n = offset + n') :
    Alike n n' (b.entry offset) (b'.entry offset') := by
  obtain ⟨engine, nonce, nonce', raw, hb, hb'⟩ := h
  have hlength := length_processBlock hK hb
  have hlength' := length_processBlock hK hb'
  obtain ⟨c, hc, hb⟩ := Except.bind_eq_ok.1 hb
  obtain ⟨c', hc', hb'⟩ := Except.bind_eq_ok.1 hb'
  obtain rfl := Except.ok.inj (hc.symm.trans hc')
  obtain ⟨_, _, hb⟩ := Except.bind_eq_ok.1 hb
  obtain ⟨_, _, hb'⟩ := Except.bind_eq_ok.1 hb'
  cases hb
  cases hb'
  refine ⟨hoffset, ?_, rfl, rfl, rfl⟩
  show u32 _ = u32 _
  rw [hlength', hlength, hoverhead]

/-- Nothing but the nonce is drawn for a block. -/
theorem Twins.eq (h : Twins K cipher cipher archiveId archiveId b b') (hnonce : b'.nonce = b.nonce) : b' = b := by
  obtain ⟨engine, nonce, nonce', raw, hb, hb'⟩ := h
  have hsame : nonce' = nonce := by
    obtain ⟨_, _, hb⟩ := Except.bind_eq_ok.1 hb
    obtain ⟨_, _, hb'⟩ := Except.bind_eq_ok.1 hb'
    obtain ⟨_, _, hb⟩ := Except.bind_eq_ok.1 hb
    obtain ⟨_, _, hb'⟩ := Except.bind_eq_ok.1 hb'
    cases hb
    cases hb'
    exact hnonce
  subst hsame
  exact Except.ok.inj (hb'.symm.trans hb)

/-- Without a cipher the nonce does not show in the bytes. -/
theorem Twins.processedData (h : Twins K .none .none archiveId archiveId' b b') :
    b'.processedData = b.processedData := by
  obtain ⟨engine, nonce, nonce', raw, hb, hb'⟩ := h
  obtain ⟨c, hc, hb⟩ := Except.bind_eq_ok.1 hb
  obtain ⟨c', hc', hb'⟩ := Except.bind_eq_ok.1 hb'
  obtain rfl := Except.ok.inj (hc.symm.trans hc')
  cases hb
  cases hb'
  rfl

end

/-! ## All blocks -/

/-- What is related to the same things is related. -/
theorem forall₂_join {α β γ : Type} {R : α → β → Prop} {S : α → γ → Prop} : ∀ {l : List α} {as : List β} {bs : List γ},
    List.Forall₂ R l as → List.Forall₂ S l bs → List.Forall₂ (fun a b => ∃ x, R x a ∧ S x b) as bs
  | _, _, _, .nil, .nil => .nil
  | _, _, _, .cons h hs, .cons h' hs' => .cons ⟨_, h, h'⟩ (forall₂_join hs hs')

section
variable {cipher cipher' : Cipher} {archiveId archiveId' : ArchiveId} {processed processed' : List ProcessedBlock}

/-- Twins are recorded alike, at offsets that differ as those of the first do. -/
theorem alike_blockEntries (hK : K.Lawful) (hoverhead : cipher'.overhead = cipher.overhead) {n n' : Nat} :
    ∀ {processed processed' : List ProcessedBlock} {offset offset' : Nat},
    List.Forall₂ (Twins K cipher cipher' archiveId archiveId') processed processed' → offset' + n = offset + n' →
    List.Forall₂ (Alike n n') (blockEntries offset processed) (blockEntries offset' processed')
  | _, _, _, _, .nil, _ => .nil
  | _, _, offset, offset', .cons (a := b) (b := b') h hs, hoffset => by
    have hentry := h.entry hK hoverhead hoffset
    have hsize : u32 b'.processedData.length = u32 b.processedData.length := hentry.sizeStored
    exact .cons hentry (alike_blockEntries hK hoverhead hs (by omega))

/-- Twins under one key that drew the same nonces are the same. -/
theorem eq_of_twins : ∀ {processed processed' : List ProcessedBlock},
    List.Forall₂ (Twins K cipher cipher archiveId archiveId) processed processed' →
    processed'.map ProcessedBlock.nonce = processed.map ProcessedBlock.nonce → processed' = processed
  | _, _, .nil, _ => rfl
  | _, _, .cons h hs, hnonces => by
    obtain ⟨hnonce, hnonces⟩ := List.cons.inj hnonces
    rw [h.eq hnonce, eq_of_twins hs hnonces]

/-- Without a cipher twins are stored alike. -/
theorem data_eq_of_twins (h : List.Forall₂ (Twins K .none .none archiveId archiveId') processed processed') :
    processed'.flatMap ProcessedBlock.processedData = processed.flatMap ProcessedBlock.processedData := by
  induction h with
  | nil => rfl
  | cons h _ ih => rw [List.flatMap_cons, List.flatMap_cons, h.processedData, ih]

end

/-! ## Two runs -/

/-- What is sealed as the index does not depend on the file. -/
theorem sealIndex_congr {arch arch' : ArchiveWriter} (hindex : arch'.index = arch.index)
    (hcipher : arch'.cipher = arch.cipher) (hheader : arch'.header = arch.header)
    (hfilePosition : arch'.filePosition = arch.filePosition) (nonce : Nonce) :
    arch'.sealIndex K nonce = arch.sealIndex K nonce := by
  obtain ⟨_, _, _, _, _, _⟩ := arch
  obtain ⟨_, _, _, _, _, _⟩ := arch'
  cases hindex
  cases hcipher
  cases hheader
  cases hfilePosition
  rfl

section
variable {draws draws' : Draws} {start start' arch arch' : ArchiveWriter} {bs : Nat} {srcs : List Source}
  {processed processed' : List ProcessedBlock}

/-- What a run has written behind the header of a new archive. -/
structure Composed (K : Crates) (draws : Draws) (start : ArchiveWriter) (srcs : List Source)
    (processed : List ProcessedBlock) (arch : ArchiveWriter) (sealedIndex : Bytes) (footer : Footer) : Prop where
  index : arch.index = ⟨Source.entries 0 srcs, blockEntries start.filePosition processed, (Source.stream srcs).length⟩
  header : arch.header = start.header
  cipher : arch.cipher = start.cipher
  filePosition : arch.filePosition = start.filePosition + (processed.flatMap ProcessedBlock.processedData).length
  sealed : arch.sealIndex K draws.indexNonce = .ok (sealedIndex, footer)
  bytes : arch.writer.bytes = start.writer.bytes ++ processed.flatMap ProcessedBlock.processedData ++
    (sealedIndex ++ footer.serialize)

theorem Run.composed (hblock : start.index.block = []) (hpos : start.filePosition = start.writer.pos)
    (hend : start.writer.pos = start.writer.bytes.length) (hrun : Run K draws start [] 0 bs srcs processed arch)
    (hlt : ∀ b ∈ processed, b.processedData.length < 2 ^ 32) :
    ∃ sealedIndex footer, Composed K draws start srcs processed arch sealedIndex footer := by
  obtain ⟨mid, hblocks, hfinal⟩ := hrun.written
  have happ := writeBlocks_ok hblocks
  have hwrote := happ.wrote (Nat.le_of_eq hend)
  obtain ⟨sealedIndex, footer, w, hseal, rfl, _, hbytes⟩ := finalize_ok hfinal
  have hsize : mid.filePosition = start.filePosition + (processed.flatMap ProcessedBlock.processedData).length := by
    rw [happ.filePosition, storedSize_eq hlt]
  have hmid : mid.filePosition = mid.writer.pos := by rw [hsize, hpos, hwrote.pos]
  have hinside := hwrote.inside (Nat.le_of_eq hend)
  refine ⟨sealedIndex, footer, ⟨?_, happ.header, happ.cipher, hsize, ?_, ?_⟩⟩
  · show Index.mk _ mid.index.block _ = _
    rw [happ.block, hblock, List.nil_append, List.nil_append, Nat.zero_add]
  · exact (sealIndex_congr rfl rfl rfl rfl _).trans hseal
  · show w.bytes = _
    rw [hbytes hinside, finalize_bytes hinside hmid, hwrote.bytes, hwrote.pos, take_overwrite_end (Nat.le_of_eq hend),
      hend, List.take_length]

/-- Runs on the same sources process twins. -/
theorem Run.twins (hrun : Run K draws start [] 0 bs srcs processed arch)
    (hrun' : Run K draws' start' [] 0 bs srcs processed' arch') (hblock : start.index.block = [])
    (hblock' : start'.index.block = []) (hcompression : start'.header.compression = start.header.compression)
    (hlevel : start'.header.compressionLevel = start.header.compressionLevel) :
    List.Forall₂ (Twins K start.cipher start'.cipher start.header.archiveId start'.header.archiveId) processed
      processed' := by
  have hworkers := hrun.workers
  have hworkers' := hrun'.workers
  rw [hblock] at hworkers
  rw [hblock', hcompression, hlevel] at hworkers'
  refine (forall₂_join (spawnWorkers_ok hworkers) (spawnWorkers_ok hworkers')).imp fun b b' h => ?_
  obtain ⟨raw, ⟨engine, hengine, hb⟩, engine', hengine', hb'⟩ := h
  obtain rfl := Except.ok.inj (hengine.symm.trans hengine')
  exact ⟨engine, _, _, raw, hb, hb'⟩

end

/-! ## Two calls -/

/-- The call left the file of this archive at the path, which the run in one thread writes with these draws. -/
structure Wrote (K : Crates) (setup : Setup) (os : Os) (args : CompressArgs) (path : Option Bytes) (draws : Draws)
    (arch : ArchiveWriter) : Prop where
  file : path = some arch.writer.bytes
  run : ∀ delivery, initializeCompression K setup ⟨os, draws, delivery⟩ args = .ok arch

/-- The bytes of the blocks, behind a header of this length. -/
def ArchiveWriter.data (n : Nat) (arch : ArchiveWriter) : Bytes :=
  slice (4 + n) (arch.filePosition - (4 + n)) arch.writer.bytes

/-- Archives with headers of these lengths that differ in nothing but what was drawn. -/
structure Reproduces (n n' : Nat) (draws draws' : Draws) (arch arch' : ArchiveWriter) : Prop where
  files : arch'.index.files = arch.index.files
  total : arch'.index.totalStreamSize = arch.index.totalStreamSize
  block : List.Forall₂ (Alike n n') arch.index.block arch'.index.block
  plain : arch.header.encryption = .none → arch'.data n' = arch.data n
  drawn : arch'.header = arch.header → arch'.cipher = arch.cipher → draws'.indexNonce = draws.indexNonce →
    arch'.index.block.map BlockEntry.nonce = arch.index.block.map BlockEntry.nonce →
    arch'.writer.bytes = arch.writer.bytes

theorem Composed.data {draws : Draws} {start arch : ArchiveWriter} {srcs : List Source}
    {processed : List ProcessedBlock} {sealedIndex : Bytes} {footer : Footer} {headerBytes : Bytes}
    (h : Composed K draws start srcs processed arch sealedIndex footer)
    (hbytes : start.writer.bytes = leBytes 4 (u32 headerBytes.length) ++ headerBytes)
    (hfile : start.filePosition = start.writer.bytes.length) :
    arch.data headerBytes.length = processed.flatMap ProcessedBlock.processedData := by
  have hlength : start.writer.bytes.length = 4 + headerBytes.length := by
    rw [hbytes, List.length_append, length_leBytes]
  unfold ArchiveWriter.data
  rw [h.bytes]
  refine slice_mid_of_eq hlength.symm ?_
  rw [h.filePosition, hfile, hlength]
  omega

theorem map_nonce_blockEntries : ∀ (offset : Nat) (processed : List ProcessedBlock),
    (blockEntries offset processed).map BlockEntry.nonce = processed.map ProcessedBlock.nonce
  | _, [] => rfl
  | _, _ :: processed => congrArg _ (map_nonce_blockEntries _ processed)

/-- The sources observed in two calls with the same input are the same. -/
theorem observed_eq {os os' : Os} {root : Path} {bs : Nat} : ∀ {queue : List Path} {srcs srcs' : List Source},
    (∀ p ∈ queue, observe os' root bs p = observe os root bs p) →
    List.Forall₂ (fun p src => observe os root bs p = .ok src) queue srcs →
    List.Forall₂ (fun p src => observe os' root bs p = .ok src) queue srcs' → srcs' = srcs
  | _, _, _, _, .nil, .nil => rfl
  | _, _, _, hsame, .cons h hs, .cons h' hs' => by
    rw [hsame _ List.mem_cons_self, h] at h'
    rw [Except.ok.inj h', observed_eq (fun p hp => hsame p (List.mem_cons_of_mem _ hp)) hs hs']

section
variable {setup setup' : Setup} {env env' : Env} {args : CompressArgs} {headerBytes headerBytes' : Bytes}
  {arch arch' : ArchiveWriter}

/-- **Two runs on the same input reproduce each other**, in whatever order their blocks are delivered. -/
theorem initializeCompression_reproduces (hK : K.Lawful) (hsmall : args.bs + 16 < 2 ^ 32)
    (hsame : SameInput setup setup' env.os env'.os args)
    (hheader : K.headerToVec (args.header setup) = some headerBytes)
    (hheader' : K.headerToVec (args.header setup') = some headerBytes')
    (h : initializeCompression K setup env args = .ok arch)
    (h' : initializeCompression K setup' env' args = .ok arch') :
    Reproduces headerBytes.length headerBytes'.length env.draws env'.draws arch arch' := by
  obtain ⟨_, root, queue, _, start, srcs, processed, _, hqueue, hnew, hobs, hrun⟩ := initializeCompression_ok h
  obtain ⟨_, root', queue', _, start', srcs', processed', _, hqueue', hnew', hobs', hrun'⟩ :=
    initializeCompression_ok h'
  -- the same sources
  rw [hsame.queue, hqueue] at hqueue'
  cases hqueue'
  obtain rfl := observed_eq (hsame.seen root queue hqueue) hobs hobs'
  -- the headers agree in what is not drawn, and so do the overheads
  obtain ⟨b, hb, hkey, hh, hindex, hfile, hend, hbytes⟩ := ArchiveWriter.new_ok hnew
  obtain ⟨b', hb', hkey', hh', hindex', hfile', hend', hbytes'⟩ := ArchiveWriter.new_ok hnew'
  cases hheader.symm.trans hb
  cases hheader'.symm.trans hb'
  have hblock : start.index.block = [] := by rw [hindex]
  have hblock' : start'.index.block = [] := by rw [hindex']
  have htwins := hrun.twins hrun' hblock hblock' (by rw [hh, hh']; rfl) (by rw [hh, hh']; rfl)
  obtain ⟨sealedIndex, footer, hc⟩ := hrun.composed hblock hfile hend (hrun.stored_lt hK hsmall)
  obtain ⟨sealedIndex', footer', hc'⟩ := hrun'.composed hblock' hfile' hend' (hrun'.stored_lt hK hsmall)
  have hkind := Cipher.new_kind hkey
  have hkind' := Cipher.new_kind hkey'
  have hencryption : (args.header setup').encryption = (args.header setup).encryption := rfl
  rw [hencryption] at hkind'
  have hoverhead : start'.cipher.overhead = start.cipher.overhead := by
    cases he : (args.header setup).encryption with
    | none =>
      rw [he] at hkind hkind'
      rw [hkind, hkind']
    | aes | chaCha =>
      rw [he] at hkind hkind'
      obtain ⟨k, hk⟩ := hkind
      obtain ⟨k', hk'⟩ := hkind'
      rw [hk, hk']
      rfl
  have hlength : start.filePosition = 4 + headerBytes.length := by
    rw [hfile, hend, hbytes, List.length_append, length_leBytes]
  have hlength' : start'.filePosition = 4 + headerBytes'.length := by
    rw [hfile', hend', hbytes', List.length_append, length_leBytes]
  refine ⟨?_, ?_, ?_, fun hnone => ?_, fun hheaders hciphers hnonce hnonces => ?_⟩
  · rw [hc.index, hc'.index]
  · rw [hc.index, hc'.index]
  · rw [hc.index, hc'.index]
    exact alike_blockEntries hK hoverhead htwins (by omega)
  · rw [hc.header, hh] at hnone
    rw [hnone] at hkind hkind'
    rw [hkind, hkind'] at htwins
    rw [hc.data hbytes (hfile.trans hend), hc'.data hbytes' (hfile'.trans hend')]
    exact data_eq_of_twins htwins
  · rw [hc.header, hc'.header] at hheaders
    rw [hc.cipher, hc'.cipher] at hciphers
    rw [hc.index, hc'.index, map_nonce_blockEntries, map_nonce_blockEntries] at hnonces
    rw [hciphers, hheaders] at htwins
    obtain rfl := eq_of_twins htwins hnonces
    have hheaderBytes : headerBytes' = headerBytes := by
      rw [hh, hh'] at hheaders
      rw [hheaders, hheader] at hheader'
      exact (Option.some.inj hheader').symm
    subst hheaderBytes
    have hseal : arch'.sealIndex K env.draws.indexNonce = arch.sealIndex K env.draws.indexNonce :=
      sealIndex_congr (by rw [hc.index, hc'.index, hlength, hlength']) (by rw [hc.cipher, hc'.cipher, hciphers])
        (by rw [hc.header, hc'.header, hheaders]) (by rw [hc.filePosition, hc'.filePosition, hlength, hlength']) _
    have hsealed' := hc'.sealed
    rw [hnonce, hseal, hc.sealed] at hsealed'
    cases hsealed'
    rw [hc.bytes, hc'.bytes, hbytes, hbytes']

/-- **Compression is reproducible**, whatever the schedules. Two calls with the same arguments that find the same at the
paths and both return `Ok` leave archives that agree in everything that is not drawn; and where the header, the key and
the nonces are the same too, the two files are, byte for byte. The block size is one whose stored blocks fit their
field. -/
theorem compress_reproducible (hK : K.Lawful) (hsmall : args.bs + 16 < 2 ^ 32) {os os' : Os}
    (hsame : SameInput setup setup' os os' args) (hheader : K.headerToVec (args.header setup) = some headerBytes)
    (hheader' : K.headerToVec (args.header setup') = some headerBytes')
    (hbuffer : ∀ faults, setup.createNew (archiveFilename args.archiveName) = some faults → faults 0 = none)
    (hbuffer' : ∀ faults, setup'.createNew (archiveFilename args.archiveName) = some faults → faults 0 = none)
    {indexNonce indexNonce' : Nonce} {existing existing' path path' : Option Bytes}
    (h : Returns K setup os indexNonce args existing (.ok ()) path)
    (h' : Returns K setup' os' indexNonce' args existing' (.ok ()) path') :
    ∃ draws draws' arch arch', Wrote K setup os args path draws arch ∧ Wrote K setup' os' args path' draws' arch' ∧
      Reproduces headerBytes.length headerBytes'.length draws draws' arch arch' := by
  obtain ⟨draws, arch, hfile, hrun⟩ := h.initializeCompression hheader hbuffer
  obtain ⟨draws', arch', hfile', hrun'⟩ := h'.initializeCompression hheader' hbuffer'
  have hseq := hrun .sequential
  have hseq' := hrun' .sequential
  exact ⟨draws, draws', arch, arch', ⟨hfile, hrun⟩, ⟨hfile', hrun'⟩,
    initializeCompression_reproduces hK hsmall hsame hheader hheader' hseq hseq'⟩

/-- The blocks of a file of two, each after the other. -/
def following : List Threads.Move :=
  let b0 : RawBlock := ⟨0, [1, 2]⟩
  let b1 : RawBlock := ⟨1, [3]⟩
  let nonce : Nonce := Vector.replicate 12 0
  let p0 : ProcessedBlock := ⟨0, [1, 2], 2, false, nonce, Vector.ofFn fun i => [1, 2].getD i 0⟩
  let p1 : ProcessedBlock := ⟨1, [3], 1, false, nonce, Vector.ofFn fun i => [3].getD i 0⟩
  [.main, .main, .main, .take, .process b0 nonce, .send p0, .receive, .main, .main, .main, .main, .take,
    .process b1 nonce, .send p1, .main, .receive, .endPool (.ok ()), .main, .receive, .main]

open Threads in
/-- A call whose schedule succeeds returns. -/
theorem returns_of_succeeded (K : Crates) (setup : Setup) (os : Os) (indexNonce : Nonce) (args : CompressArgs)
    (moves : List Move) (hrun : (openArchive K setup args none).1.toOption.map (fun r =>
      (run K ⟨os, r.1, args.bs, r.2.2, indexNonce⟩ moves (spawn ⟨os, r.1, args.bs, r.2.2, indexNonce⟩ r.2.1
        (openArchive K setup args none).2)).map State.succeeded) = some (some true)) :
    ∃ path, Returns K setup os indexNonce args none (.ok ()) path := by
  obtain ⟨⟨root, queue, archive⟩, hopen, hrun⟩ := Except.exists_of_toOption_map hrun
  obtain ⟨s, hrun, hs⟩ := Option.map_eq_some_iff.1 hrun
  refine ⟨s.path, .late (Act.run_of_ok hopen) hrun ?_⟩
  unfold State.succeeded at hs
  split at hs
  · assumption
  · cases hs

/-- Another archive id, with a longer header, and another schedule. -/
theorem compress_reproducible_two :
    let setup := Setup.plain [[.normal "src", .normal "a"]]
    let setup' := { setup with archiveId := Vector.replicate 16 7 }
    let args := CompressArgs.plain 2
    let K := Crates.tabled [Header.stored 2, args.header setup'] [indexOfA,
      { indexOfA with block := [plainBlock 5 [1, 2], plainBlock 7 [3]] }]
    let os := Os.ofFiles [([.normal "src", .normal "a"], 3, [1, 2, 3])]
    ∃ path path', Returns K setup os (Vector.replicate 12 0) args none (.ok ()) path ∧
      Returns K setup' os (Vector.replicate 12 0) args none (.ok ()) path' ∧
      ∃ draws draws' arch arch', Wrote K setup os args path draws arch ∧ Wrote K setup' os args path' draws' arch' ∧
        Reproduces 0 1 draws draws' arch arch' := by
  intro setup setup' args K os
  obtain ⟨path, h⟩ := returns_of_succeeded K setup os (Vector.replicate 12 0) args overtaking (by decide +kernel)
  obtain ⟨path', h'⟩ := returns_of_succeeded K setup' os (Vector.replicate 12 0) args following (by decide +kernel)
  have hsame : SameInput setup setup' os os args := ⟨rfl, fun _ _ _ _ _ => rfl⟩
  have hheader : K.headerToVec (args.header setup) = some [] := by decide +kernel
  have hheader' : K.headerToVec (args.header setup') = some [0] := by decide +kernel
  exact ⟨path, path', h, h', compress_reproducible (Crates.tabled_lawful _ _) (by decide) hsame hheader hheader'
    (fun faults hf => by cases hf; rfl) (fun faults hf => by cases hf; rfl) h h'⟩

end

end Cryo
