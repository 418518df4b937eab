import Cryo.History
import Cryo.Tree
import Mathlib.Data.Countable.Basic
import Mathlib.Logic.Equiv.List
import Mathlib.Tactic.DeriveCountable

/-!
# The round trip

Regular files and directories that are archived come back. `Original` is what is archived, `Shown` how the operating
system shows it to the reader: the metadata of `lstat`, and the bytes in pieces of any size.

* `initializeCompression_succeeds`: when nothing around it fails, a compression succeeds.
* `round_trip`: the archive of a compression is accepted by `verify`, and every entry is extracted with its bytes.
-/

namespace Cryo

open Posix Bytes Chunk

variable {K : Crates}

/-! ## Compressions that succeed -/

variable (K) in
/-- No encoder fails. -/
structure Crates.Total : Prop where
  zstd : ∀ l d, ∃ c, K.zstdCompress l d = some c
  xz : ∀ l d, ∃ c, K.xzEncode l d = .ok c
  deflate : ∀ l d, ∃ c, K.deflateEncode l d = .ok c
  aes : ∀ k n a m, ∃ c, K.aesEncrypt k n a m = some c
  chacha : ∀ k n a m, ∃ c, K.chachaEncrypt k n a m = some c
  header : ∀ h, ∃ b, K.headerToVec h = some b
  index : ∀ i, ∃ b, K.indexToVec i = some b

theorem compress_total (hK : K.Total) (e : CompressingEngine K) (d : Bytes) : ∃ c, e.compress d = .ok c := by
  obtain ⟨engine, level, hl⟩ := e
  cases engine with
  | zstd =>
    obtain ⟨c, hc⟩ := hK.zstd level d
    exact ⟨c, by simp [CompressingEngine.compress, hc]⟩
  | deflate =>
    obtain ⟨c, hc⟩ := hK.deflate level.toNat d
    exact ⟨c, by simp [CompressingEngine.compress, hc, encoded]⟩
  | xz =>
    obtain ⟨c, hc⟩ := hK.xz level.toNat d
    exact ⟨c, by simp [CompressingEngine.compress, hc, encoded]⟩
  | none => exact ⟨d, rfl⟩

theorem encryptBlock_total (hK : K.Total) (n : Nat) (d : Bytes) (encd : EncryptedData) (a : ArchiveId) (c : Cipher) :
    ∃ e, encryptBlock K n d encd a c = .ok e := by
  cases c with
  | none => exact ⟨d, rfl⟩
  | aes k =>
    obtain ⟨e, he⟩ := hK.aes k (encd.seal n a).1 (encd.seal n a).2 d
    exact ⟨e, by simp [encryptBlock, he, sealed]⟩
  | chacha k =>
    obtain ⟨e, he⟩ := hK.chacha k (encd.seal n a).1 (encd.seal n a).2 d
    exact ⟨e, by simp [encryptBlock, he, sealed]⟩

theorem processBlock_total (hK : K.Total) (cipher : Cipher) (archiveId : ArchiveId) (engine : CompressingEngine K)
    (nonce : Nonce) (raw : RawBlock) : ∃ b, processBlock cipher archiveId engine nonce raw = .ok b := by
  obtain ⟨c, hc⟩ := compress_total hK engine raw.rawData
  obtain ⟨e, he⟩ := encryptBlock_total hK raw.id (smaller c raw.rawData).1 (.block nonce) archiveId cipher
  exact ⟨_, Except.bind_eq_ok.2 ⟨c, hc, Except.bind_eq_ok.2 ⟨e, he, rfl⟩⟩⟩

theorem spawnWorkers_total (hK : K.Total) {compression : Compressor} {level : Int} {engine : CompressingEngine K}
    (hengine : CompressingEngine.new compression level = .ok engine) (nonces : Nat → Nonce) (cipher : Cipher)
    (archiveId : ArchiveId) (raws : List RawBlock) :
    ∃ bs, spawnWorkers K raws nonces cipher archiveId compression level = .ok bs := by
  refine Except.exists_mapM_ok fun raw _ => ?_
  obtain ⟨b, hb⟩ := processBlock_total hK cipher archiveId engine (nonces raw.id) raw
  exact ⟨b, Except.bind_eq_ok.2 ⟨engine, hengine, hb⟩⟩

theorem sealIndex_total (hK : K.Total) (arch : ArchiveWriter) (nonce : Nonce) {engine : CompressingEngine K}
    (hengine : CompressingEngine.new arch.header.compression arch.header.compressionLevel = .ok engine) :
    ∃ r, arch.sealIndex K nonce = .ok r := by
  obtain ⟨b, hb⟩ := hK.index arch.index
  obtain ⟨c, hc⟩ := compress_total hK engine b
  obtain ⟨e, he⟩ := encryptBlock_total hK 0 (if u32 b.length > c.length then (c, true) else (b, false)).1
    (.index nonce) arch.header.archiveId arch.cipher
  have hbytes : (K.indexToVec arch.index).elim (.error .serializationFailed) .ok = (.ok b : Result Bytes) := by
    rw [hb]; rfl
  exact ⟨_, Except.bind_eq_ok.2 ⟨b, hbytes, Except.bind_eq_ok.2 ⟨engine, hengine,
    Except.bind_eq_ok.2 ⟨c, hc, Except.bind_eq_ok.2 ⟨e, he, rfl⟩⟩⟩⟩⟩

variable (K) in
/-- Nothing around a compression fails: its arguments are accepted, the password can be read, and the file is created
and written. -/
structure Ready (setup : Setup) (args : CompressArgs) : Prop where
  accepted : checkCompressionForArgErr setup args.archiveName args.pathToCompress args.recursive = .ok ()
  level : args.compression.verifyLevel K args.compressionLevel = true
  zstd : K.zstdReady = true
  create : setup.createNew (archiveFilename args.archiveName) = some fun _ => none
  key : ∃ cipher, Cipher.new K setup.prompts (args.header setup) args.confirm = .ok cipher

theorem Ready.engine {setup : Setup} {args : CompressArgs} (h : Ready K setup args) :
    ∃ engine : CompressingEngine K, CompressingEngine.new args.compression args.compressionLevel = .ok engine := by
  unfold CompressingEngine.new
  rw [dif_pos h.level, if_neg (by simp [h.zstd])]
  exact ⟨_, rfl⟩

/-- A compression of files that can be read succeeds when the pool processes the blocks and the index can be sealed. -/
theorem initializeCompression_of_sealed {setup : Setup} {env : Env} {args : CompressArgs} {root : Path}
    {queue : List Path} {srcs : List Source} (hready : Ready K setup args) {cipher : Cipher}
    (hkey : Cipher.new K setup.prompts (args.header setup) args.confirm = .ok cipher) {headerBytes : Bytes}
    (hvec : K.headerToVec (args.header setup) = some headerBytes)
    (hqueue : queueFiles setup args.pathToCompress args.recursive = .ok (root, queue))
    (hobs : List.Forall₂ (fun p src => observe env.os root args.bs p = .ok src) queue srcs)
    {processed : List ProcessedBlock} (hworkers : spawnWorkers K (numbered 0 (chunks args.bs (Source.stream srcs)))
      env.draws.nonces cipher (args.header setup).archiveId args.compression args.compressionLevel = .ok processed)
    (hseal : ∀ arch : ArchiveWriter, arch.header = args.header setup → arch.cipher = cipher →
      arch.index = ⟨Source.entries 0 srcs, blockEntries (4 + headerBytes.length) processed,
        (Source.stream srcs).length⟩ → ∃ r, arch.sealIndex K env.draws.indexNonce = .ok r) :
    ∃ arch', initializeCompression K setup env args = .ok arch' := by
  obtain ⟨engine, hengine⟩ := hready.engine
  obtain ⟨arch, hnew, hheader, hcipher, hindex, hposition, hreliable⟩ : ∃ arch, ArchiveWriter.new K
      (some (Sink.create fun _ => none)) (args.header setup) setup.prompts args.confirm = .ok arch ∧
      arch.header = args.header setup ∧ arch.cipher = cipher ∧ arch.index = ⟨[], [], 0⟩ ∧
      arch.filePosition = 4 + headerBytes.length ∧ arch.writer.Reliable := by
    unfold ArchiveWriter.new
    rw [hkey]
    exact ⟨_, ArchiveWriter.writeHeader_eq hvec (fun _ => none) rfl cipher, rfl, rfl, rfl, by simp, fun _ => rfl⟩
  have hblocks : arch.index.block = [] := by rw [hindex]
  have hworkers : spawnWorkers K (numbered arch.index.block.length (chunks args.bs (Source.stream srcs)))
      env.draws.nonces arch.cipher arch.header.archiveId arch.header.compression arch.header.compressionLevel
        = .ok processed := by
    rw [hblocks, hheader, hcipher]
    exact hworkers
  obtain ⟨mid, hmid, hmidr⟩ := writeBlocks_reliable processed hreliable
  have happ := writeBlocks_ok hmid
  have hmidblock : mid.index.block = blockEntries (4 + headerBytes.length) processed := by
    rw [happ.block, hblocks, hposition, List.nil_append]
  obtain ⟨r, hr⟩ := hseal (mid.closed ([] ++ Source.entries 0 srcs) (0 + (Source.stream srcs).length))
    (happ.header.trans hheader) (happ.cipher.trans hcipher)
    (by rw [ArchiveWriter.closed, hmidblock, List.nil_append, Nat.zero_add])
  obtain ⟨arch', hfinal⟩ := finalize_reliable hmidr hr
  have hrun : compressFiles K env arch root queue args.bs = .ok arch' :=
    (compressFiles_ok_iff hblocks).2 ⟨srcs, processed, hobs, feedable_of_observe hobs, hworkers, mid, hmid, hfinal⟩
  refine ⟨arch', ?_⟩
  unfold initializeCompression prepare
  rw [hready.accepted, hready.create, hqueue, hengine]
  simp only [Except.ok_bind, Option.map_some]
  rw [hnew]
  exact hrun

/-- **A compression of files that can be read succeeds.** -/
theorem initializeCompression_succeeds (hK : K.Total) {setup : Setup} {env : Env} {args : CompressArgs} {root : Path}
    {queue : List Path} {srcs : List Source} (hready : Ready K setup args)
    (hqueue : queueFiles setup args.pathToCompress args.recursive = .ok (root, queue))
    (hobs : List.Forall₂ (fun p src => observe env.os root args.bs p = .ok src) queue srcs) :
    ∃ arch', initializeCompression K setup env args = .ok arch' := by
  obtain ⟨engine, hengine⟩ := hready.engine
  obtain ⟨cipher, hkey⟩ := hready.key
  obtain ⟨headerBytes, hvec⟩ := hK.header (args.header setup)
  obtain ⟨processed, hworkers⟩ := spawnWorkers_total hK hengine env.draws.nonces cipher (args.header setup).archiveId
    (numbered 0 (chunks args.bs (Source.stream srcs)))
  refine initializeCompression_of_sealed hready hkey hvec hqueue hobs hworkers fun arch hheader _ _ => ?_
  exact sealIndex_total hK arch env.draws.indexNonce (by rw [hheader]; exact hengine)

/-! ## What is archived -/

/-- A regular file with its bytes, mode and time, or a directory. -/
inductive Original where
  | file (path : Path) (content : Bytes) (mode mtime : Nat)
  | dir (path : Path)

namespace Original

def path : Original → Path
  | .file path _ _ _ => path
  | .dir path => path

def content : Original → Bytes
  | .file _ content _ _ => content
  | .dir _ => []

def ftype : Original → FileType
  | .file _ _ _ _ => .file
  | .dir _ => .dir

/-- What it is and where it stands. -/
def place (o : Original) : FileType × List String := (o.ftype, o.path.names)

/-- It stands below `R`; a mode without set-ID bits is its own. -/
def Restored (fs : FS) (R : Loc) : Original → Prop
  | .file path content mode mtime => ∃ m, fs (R ++ path.names) = some (.file content m mtime) ∧
    (mode &&& 0o6000 = 0 → m = mode % 0o10000)
  | .dir path => fs.isDir (R ++ path.names) = true

end Original

/-- The operating system shows an original at `p`: `lstat` tells its kind, size, mode and time, and reading a file to
its end returns its bytes, in whatever pieces. -/
inductive Shown (os : Os) (root : Path) (blockSize : Nat) (p : Path) : Original → Prop
  | file {path : Path} {content : Bytes} {m : Metadata} {f : OpenFile} {mtime : Nat} :
    p.stripPrefix root = some path → os.symlinkMetadata p = .ok m → m.ftype = .file → m.size = content.length →
    m.mtime = mtime → mtime < 2 ^ 63 → os.openFile p = .ok f → f.err blockSize = none →
    (f.reads blockSize).flatten = content → Shown os root blockSize p (.file path content m.mode mtime)
  | dir {path : Path} {m : Metadata} {mtime : Nat} :
    p.stripPrefix root = some path → os.symlinkMetadata p = .ok m → m.ftype = .dir → m.mtime = mtime →
    mtime < 2 ^ 63 → Shown os root blockSize p (.dir path)

/-- A source is what was seen of an original. -/
structure Matches (src : Source) (o : Original) : Prop where
  path : src.path = o.path
  ftype : src.metadata.ftype = o.ftype
  data : src.data = o.content
  unchanged : src.Unchanged
  time : asU64 src.metadata.mtime < 2 ^ 63
  restored : ∀ {fs R m}, fs (R ++ src.path.names) = some (.file src.data m (asU64 src.metadata.mtime)) →
    (src.metadata.mode &&& 0o6000 = 0 → m = src.metadata.mode % 0o10000) → o.ftype = .file → o.Restored fs R

theorem asU64_of_nonneg {t : Int} {n : Nat} (h : t = n) (hn : n < 2 ^ 63) : asU64 t = n := by
  subst h
  unfold asU64
  rw [Int.emod_eq_of_lt (by omega) (by omega), Int.toNat_natCast]

/-- What is shown is observed. -/
theorem Shown.observe {os : Os} {root : Path} {bs : Nat} (hbs : bs < 2 ^ 63) {p : Path} {o : Original}
    (h : Shown os root bs p o) : ∃ src, observe os root bs p = .ok src ∧ Matches src o := by
  cases h with
  | file hpath hm hkind hsize htime hlt hopen herr hread =>
    have hu64 := asU64_of_nonneg htime hlt
    refine ⟨⟨_, _, none, _⟩, ?_, rfl, hkind, hread, ?_, by rw [hu64]; exact hlt, fun hfs hmode _ => ?_⟩
    · unfold Cryo.observe stripRoot allocBuffer
      rw [hm, hpath]
      simp only [readFailed, Except.mapError, Except.ok_bind, hkind, hopen, if_pos hbs, herr]
    · unfold Source.Unchanged Source.entry Source.isFile
      simp [hkind, hread, hsize]
    · rw [hu64, hread] at hfs
      exact ⟨_, hfs, hmode⟩
  | dir hpath hm hkind htime hlt =>
    refine ⟨⟨_, _, none, []⟩, ?_, rfl, hkind, rfl, ?_, by rw [asU64_of_nonneg htime hlt]; exact hlt, ?_⟩
    · unfold Cryo.observe stripRoot
      rw [hm, hpath]
      simp only [readFailed, Except.mapError, Except.ok_bind, hkind]
    · unfold Source.Unchanged Source.entry Source.isFile
      simp [hkind]
    · intro _ _ _ _ _ hfile
      cases hfile

theorem observe_of_shown {os : Os} {root : Path} {bs : Nat} (hbs : bs < 2 ^ 63) : ∀ {queue : List Path}
    {originals : List Original}, List.Forall₂ (Shown os root bs) queue originals →
    ∃ srcs, List.Forall₂ (fun p src => observe os root bs p = .ok src) queue srcs ∧
      List.Forall₂ Matches srcs originals
  | _, _, .nil => ⟨[], .nil, .nil⟩
  | _, _, .cons h hs => by
    obtain ⟨src, hobs, hmatch⟩ := h.observe hbs
    obtain ⟨srcs, hobss, hmatches⟩ := observe_of_shown hbs hs
    exact ⟨src :: srcs, .cons hobs hobss, .cons hmatch hmatches⟩

/-! ## The entries of what is archived -/

variable {srcs : List Source} {originals : List Original}

theorem Source.mem_entries : ∀ {srcs : List Source} {pos : Nat} {e : FileEntry}, e ∈ entries pos srcs →
    ∃ src ∈ srcs, ∃ off, e = src.entry off
  | [], _, _, he => by cases he
  | src :: srcs, pos, e, he => by
    rcases List.mem_cons.1 he with rfl | he
    · exact ⟨src, List.mem_cons_self, pos, rfl⟩
    · obtain ⟨src', hsrc, off, rfl⟩ := mem_entries he
      exact ⟨src', List.mem_cons_of_mem src hsrc, off, rfl⟩

theorem places_entries (h : List.Forall₂ Matches srcs originals) :
    ∀ pos, (Source.entries pos srcs).map FileEntry.place = originals.map Original.place := by
  induction h with
  | nil => exact fun _ => rfl
  | @cons src o srcs originals h _ ih =>
    intro pos
    have hplace : (src.entry pos).place = o.place := by
      unfold FileEntry.place Original.place
      rw [Source.entry_ftype, Source.entry_path, h.ftype, h.path]
    rw [Source.entries, List.map_cons, List.map_cons, hplace, ih]

theorem length_stream_matches (h : List.Forall₂ Matches srcs originals) :
    (Source.stream srcs).length = (originals.map fun o => o.content.length).sum := by
  induction h with
  | nil => rfl
  | cons h _ ih => rw [Source.stream_cons, List.length_append, h.data, ih, List.map_cons, List.sum_cons]

/-- The entries of safe originals can be extracted. -/
theorem fits_entries (h : List.Forall₂ Matches srcs originals) {limits : Limits}
    (hsafe : ∀ o ∈ originals, isSafePath o.path = true ∧ o.path.names ≠ [])
    (hfile : ∀ o ∈ originals, o.content.length ≤ limits.effMaxFile)
    (htotal : (originals.map fun o => o.content.length).sum < 2 ^ 64) :
    ∀ e ∈ Source.entries 0 srcs, e.Fits limits := by
  intro e he
  obtain ⟨src, hsrc, off, rfl⟩ := Source.mem_entries he
  obtain ⟨o, ho, hmatch⟩ := h.exists_of_mem hsrc
  have hsize : (src.entry off).size = o.content.length := by rw [← hmatch.data]; exact hmatch.unchanged.symm
  have hin := Source.inside (fun x hx => (h.exists_of_mem hx).choose_spec.2.unchanged) he
  rw [length_stream_matches h] at hin
  exact {
    safe := by rw [Source.entry_path, hmatch.path]; exact (hsafe o ho).1
    named := by rw [Source.entry_path, hmatch.path]; exact (hsafe o ho).2
    kind := by rw [Source.entry_ftype, hmatch.ftype]; cases o <;> simp [Original.ftype]
    size := by rw [hsize]; exact hfile o ho
    range := by omega
    time := hmatch.time }

/-- What was extracted of an original is the original. -/
theorem restored_of_extracted {r : ArchiveReader} {ps : List Bytes} {R : Loc} {seen : List FileEntry} {w : World}
    (h : List.Forall₂ Matches srcs originals) (hps : ps.flatten = Source.stream srcs)
    (hext : r.Extracted ps R seen (Source.entries 0 srcs) w) : ∀ o ∈ originals, o.Restored w.fs R := by
  intro o ho
  obtain ⟨i, hi⟩ := List.mem_iff_getElem?.1 ho
  obtain ⟨hlt, rfl⟩ := List.getElem?_eq_some_iff.1 hi
  have hlt' : i < srcs.length := by rw [h.length_eq]; exact hlt
  have hmatch : Matches srcs[i] originals[i] := (List.forall₂_iff_get.1 h).2 i hlt' hlt
  obtain ⟨a, b, hstream, he⟩ := Source.locate 0 (List.getElem?_eq_getElem hlt')
  have hmem := List.mem_of_getElem? he
  have hsize : (srcs[i].entry (0 + a.length)).size = srcs[i].data.length := hmatch.unchanged.symm
  cases ho : originals[i].ftype with
  | file =>
    have hfile := hext.files _ hmem (by rw [Source.entry_ftype, hmatch.ftype, ho])
    rw [hsize, Source.entry_streamOffset, hps, hstream, slice_mid_of_eq (by simp) rfl] at hfile
    exact hmatch.restored hfile (fun hplain => ArchiveReader.fileMode_eq_iff.2 (.plain hplain)) ho
  | dir =>
    have hdir := hext.dirs _ hmem (by rw [Source.entry_ftype, hmatch.ftype, ho])
    rw [Source.entry_path, hmatch.path] at hdir
    cases hx : originals[i] with
    | file => rw [hx] at ho; cases ho
    | dir path => rw [hx] at hdir; exact hdir
  | symlink =>
    cases hx : originals[i] <;> rw [hx] at ho <;> cases ho

/-! ## The round trip -/

/-- **Everything archived comes back.** A compression of files and directories that stand apart succeeds when nothing
around it fails; its archive opens, passes `verify`, and is extracted into an empty directory without an error, each
file with its bytes, its time and, without set-ID bits, its mode. -/
theorem round_trip (hK : K.Lawful) {setup : Setup} {env : Env} {args : CompressArgs} {root : Path} {queue : List Path}
    (hbs : args.bs ≤ MAX_BLOCK_SIZE) (hqueue : queueFiles setup args.pathToCompress args.recursive = .ok (root, queue))
    (hshown : List.Forall₂ (Shown env.os root args.bs) queue originals)
    (hsafe : ∀ o ∈ originals, isSafePath o.path = true ∧ o.path.names ≠ [])
    (hapart : (originals.map Original.place).Pairwise Apart)
    (htotal : (originals.map fun o => o.content.length).sum < 2 ^ 64) :
    (K.Total → Ready K setup args → ∃ arch, initializeCompression K setup env args = .ok arch) ∧
    ∀ arch, initializeCompression K setup env args = .ok arch → ∀ limits, Sizes K limits arch →
      (∀ o ∈ originals, o.content.length ≤ limits.effMaxFile) →
      ∀ prompts confirm, Cipher.new K prompts arch.header confirm = .ok arch.cipher → ∀ p out, ∃ r : ArchiveReader,
        ArchiveReader.new K arch.writer.bytes p out limits prompts confirm = .ok r ∧ r.verify K p = .ok () ∧
        ∀ w R, World.Vacant w out R → ∃ w', r.handleFiles K w = (.ok (), w') ∧ ∀ o ∈ originals, o.Restored w'.fs R := by
  have hsmall : args.bs + 16 < 2 ^ 32 := Nat.lt_of_le_of_lt (Nat.add_le_add_right hbs 16) (by decide)
  obtain ⟨srcs, hobs, hmatch⟩ := observe_of_shown (by omega) hshown
  refine ⟨fun htot hready => initializeCompression_succeeds htot hready hqueue hobs, ?_⟩
  intro arch hrun limits hs hfile prompts confirm hkey p out
  have hblock := initializeCompression_blockSize hrun
  obtain ⟨im, root', queue', srcs', hqueue', hobs', hf, _, hfiles, hengine⟩ :=
    initializeCompression_finished hK hrun (.inl (hblock ▸ hsmall))
  obtain ⟨rfl, rfl⟩ := Prod.mk.inj (Except.ok.inj (hqueue.symm.trans hqueue'))
  obtain rfl : srcs = srcs' :=
    Except.ok.inj ((Except.mapM_eq_ok.2 hobs).symm.trans (Except.mapM_eq_ok.2 hobs'))
  have hlt := hf.blocks_small (hblock ▸ hsmall)
  have hdec : (arch.reader p out limits).DecodesTo K (chunks args.bs (Source.stream srcs)) := {
    decoded := hf.decoded hs.offset hlt p out limits
    readable := hf.readable hs.offset hlt p out limits
    engine := hengine
    buffer := show arch.header.blockSize < 2 ^ 63 by omega }
  refine ⟨arch.reader p out limits, hf.new_reader hK hs hkey p out, ?_, fun w R hroot => ?_⟩
  · refine (ArchiveReader.verify_ok hengine).2 fun i block hi => ?_
    obtain ⟨plain, hread, hsum⟩ := hdec.readable i block hi
    exact ⟨plain, (ArchiveReader.readBlock_ok.1 hread).1, hsum⟩
  · have hfits : ∀ e ∈ arch.index.files, e.Fits limits := hfiles ▸ fits_entries hmatch hsafe hfile htotal
    have hplaces : (arch.index.files.map FileEntry.place).Pairwise Apart := by
      rw [hfiles, places_entries hmatch]; exact hapart
    obtain ⟨_, w', hok, hext⟩ := Act.exists_ok (ArchiveReader.wp_handleFiles hdec hfits hplaces hroot)
    have hext : (arch.reader p out limits).Extracted _ R (Source.entries 0 srcs) (Source.entries 0 srcs) w' :=
      hfiles ▸ hext
    exact ⟨w', hok, restored_of_extracted hmatch (flatten_chunks _ _) hext⟩

/-! ## Crates that never fail -/

instance countableUInt8 : Countable UInt8 :=
  Function.Injective.countable (f := UInt8.toNat) fun _ _ => UInt8.toNat_inj.1

instance countableChar : Countable Char :=
  Function.Injective.countable (f := Char.toNat) fun _ _ => Char.toNat_inj.1

instance countableString : Countable String :=
  Function.Injective.countable (f := String.toList) fun _ _ => String.toList_injective

instance countableVector {n : Nat} : Countable (Vector UInt8 n) :=
  Function.Injective.countable (f := Vector.toList) fun _ _ => Vector.toList_inj.1

deriving instance Countable for Component, Compressor, EncryptionType, FileType, BlockEntry, FileEntry, Index, Header

/-- Crates that store, with an encoding for every header and every index: as many bytes as its number. -/
noncomputable def Crates.numbered : Crates :=
  { Crates.tabled [] [] with
    headerToVec := fun h => some (List.replicate ((Encodable.ofCountable Header).encode h) 0)
    headerFromSlice := fun b => (Encodable.ofCountable Header).decode b.length
    indexToVec := fun i => some (List.replicate ((Encodable.ofCountable Index).encode i) 0)
    indexFromSlice := fun b => (Encodable.ofCountable Index).decode b.length }

theorem Crates.numbered_lawful : numbered.Lawful where
  __ := tabled_lawful [] []
  header h := by
    cases h
    show (Encodable.ofCountable Header).decode (List.replicate _ (0 : UInt8)).length = _
    rw [List.length_replicate]
    exact (Encodable.ofCountable Header).encodek _
  index h := by
    cases h
    show (Encodable.ofCountable Index).decode (List.replicate _ (0 : UInt8)).length = _
    rw [List.length_replicate]
    exact (Encodable.ofCountable Index).encodek _

theorem Crates.numbered_total : numbered.Total where
  zstd _ _ := ⟨_, rfl⟩
  xz _ _ := ⟨_, rfl⟩
  deflate _ _ := ⟨_, rfl⟩
  aes _ _ _ _ := ⟨_, rfl⟩
  chacha _ _ _ _ := ⟨_, rfl⟩
  header _ := ⟨_, rfl⟩
  index _ := ⟨_, rfl⟩

/-! ## A directory with a file -/

/-- The directory `d` with the file `a` of three bytes. -/
def smallTree : List Original := [.dir [.normal "d"], .file [.normal "d", .normal "a"] [1, 2, 3] 0o644 0]

def smallOs : Os where
  symlinkMetadata p :=
    if p = [.normal "src", .normal "d"] then .ok ⟨.dir, 0, 0, 0o755⟩ else .ok ⟨.file, 3, 0, 0o644⟩
  readLink _ := .error .inval
  openFile _ := .ok (.ofContent [1, 2, 3])

/-- Its index, with blocks of two bytes. -/
def smallIndex : Index where
  files := [{
    path := [.normal "d"]
    ftype := .dir
    streamOffset := 0
    size := 0
    timestamp := 0
    permissions := 0o755
    symlinkTarget := none }, { plainFile "a" 0 3 with path := [.normal "d", .normal "a"] }]
  block := indexOfA.block
  totalStreamSize := 3

/-- With crates that never fail it is archived, and with those that write a short index it comes back. -/
theorem round_trip_small :
    let K := Crates.tabled [Header.stored 2] [smallIndex]
    let setup := Setup.plain [[.normal "src", .normal "d"], [.normal "src", .normal "d", .normal "a"]]
    (∃ arch, initializeCompression Crates.numbered setup (Env.plain smallOs) (CompressArgs.plain 2) = .ok arch) ∧
    ∃ (arch : ArchiveWriter) (r : ArchiveReader) (w' : World),
      ArchiveReader.new K arch.writer.bytes [] [.rootDir, .normal "out"] Limits.default ⟨none, none⟩ false = .ok r ∧
      r.verify K [] = .ok () ∧ r.handleFiles K (World.ofDirs [[], ["out"]]) = (.ok (), w') ∧
      w'.fs ["out", "d", "a"] = some (.file [1, 2, 3] 0o644 0) := by
  intro K setup
  let d : Path := [.normal "src", .normal "d"]
  let a : Path := [.normal "src", .normal "d", .normal "a"]
  let footer : Footer := ⟨7, 0, 0, false, Vector.replicate 12 0⟩
  obtain ⟨arch, hrun, hshown⟩ := Except.exists_of_toOption_map (f := ArchiveWriter.shown)
    (x := initializeCompression K (Setup.plain [d, a]) (Env.plain smallOs) (CompressArgs.plain 2))
    (b := ([0, 0, 0, 0] ++ [1, 2, 3] ++ List.replicate 0 0 ++ footer.serialize, smallIndex, 7, Header.stored 2, .none))
    (by decide +kernel)
  have hs : Sizes K Limits.default arch :=
    sizes_of_shown hshown (by decide +kernel) (by decide +kernel) (by decide) (by decide)
  unfold ArchiveWriter.shown at hshown
  simp only [Prod.mk.injEq] at hshown
  obtain ⟨_, _, _, hheader, hcipher⟩ := hshown
  have htime : (0 : Int) = (0 : Nat) := rfl
  have hd : Shown smallOs [.normal "src"] 2 d (.dir [.normal "d"]) := .dir (by decide) rfl rfl htime (by decide)
  have ha : Shown smallOs [.normal "src"] 2 a (.file [.normal "d", .normal "a"] [1, 2, 3] 0o644 0) :=
    .file (m := ⟨.file, 3, 0, 0o644⟩) (by decide) rfl rfl rfl htime (by decide) rfl rfl (by decide +kernel)
  have hshown :
      List.Forall₂ (Shown (Env.plain smallOs).os [.normal "src"] (CompressArgs.plain 2).bs) [d, a] smallTree :=
    .cons hd (.cons ha .nil)
  have hqueue : queueFiles (Setup.plain [d, a]) (CompressArgs.plain 2).pathToCompress (CompressArgs.plain 2).recursive
      = .ok ([.normal "src"], [d, a]) := rfl
  have hroot : (World.ofDirs [[], ["out"]]).Vacant [.rootDir, .normal "out"] ["out"] :=
    ⟨fun _ => rfl, by decide +kernel, .inl (by decide), fun ns hns => by simp [World.ofDirs, hns]⟩
  have hready : Ready Crates.numbered setup (CompressArgs.plain 2) :=
    ⟨by decide, by decide, rfl, rfl, .none, rfl⟩
  have hmade :
      ∃ arch, initializeCompression Crates.numbered setup (Env.plain smallOs) (CompressArgs.plain 2) = .ok arch :=
    (round_trip Crates.numbered_lawful (by decide) hqueue hshown (by decide) (by decide) (by decide)).1
      Crates.numbered_total hready
  have hall := round_trip (Crates.tabled_lawful [Header.stored 2] [smallIndex]) (by decide) hqueue hshown (by decide)
    (by decide) (by decide)
  obtain ⟨r, hnew, hverify, hextract⟩ := hall.2 arch hrun Limits.default hs (by decide) ⟨none, none⟩ false
    (by rw [hheader, hcipher]; rfl) [] [.rootDir, .normal "out"]
  obtain ⟨w', hok, hrestored⟩ := hextract _ _ hroot
  refine ⟨hmade, arch, r, w', hnew, hverify, hok, ?_⟩
  obtain ⟨m, hfile, hmode⟩ := hrestored (.file [.normal "d", .normal "a"] [1, 2, 3] 0o644 0) (by simp [smallTree])
  rw [hmode (by decide)] at hfile
  exact hfile

end Cryo
