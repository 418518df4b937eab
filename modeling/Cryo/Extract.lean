import Cryo.Verify

/-!
# What an extraction writes

The bytes that the loop of `extractFile` writes are the window of the entry in the concatenation of the decoded blocks
(`wp_extractBlocks`): on success all of it, and at every moment a prefix of it. `extractRegular` adds the creation of
the file and its mode and time (`wp_extractRegular`). The mode is set while the buffer may still hold the last bytes of
the entry (`heldBack`), and writing them takes set-ID bits away again (`fileMode`).

* `complete_iff`: a successful extraction is complete exactly when the entry is empty or its range lies in the blocks.
* `extract_incomplete`: an archive with a successful extraction that is not.
-/

namespace Cryo

open Posix Bytes Ranges

theorem buildBlockRanges_go : ∀ (s : Nat) (blocks : List BlockEntry),
    buildBlockRanges.go s blocks = ranges s (blocks.map BlockEntry.sizePlain)
  | _, [] => rfl
  | s, b :: blocks => by simp [buildBlockRanges.go, ranges, buildBlockRanges_go _ blocks]

theorem buildBlockRanges_eq (blocks : List BlockEntry) :
    buildBlockRanges blocks = ranges 0 (blocks.map BlockEntry.sizePlain) := buildBlockRanges_go 0 blocks

/-- The loop starts at the `k`-th block. -/
theorem drop_blockRanges : ∀ (k n s : Nat) (blocks : List BlockEntry),
    ((buildBlockRanges.go s blocks).zipIdx n).drop k
      = (buildBlockRanges.go (s + ((blocks.take k).map BlockEntry.sizePlain).sum) (blocks.drop k)).zipIdx (n + k)
  | 0, n, s, blocks => by simp
  | k + 1, n, s, [] => by simp [buildBlockRanges.go]
  | k + 1, n, s, b :: blocks => by
    simp only [buildBlockRanges.go, List.zipIdx_cons, List.drop_succ_cons, List.take_succ_cons, List.map_cons,
      List.sum_cons, drop_blockRanges k (n + 1), Nat.add_assoc, Nat.add_comm 1 k]

variable {K : Crates}

namespace ArchiveReader

variable {r : ArchiveReader} {engine : DecompressingEngine}

variable (K r engine) in
/-- `ps` are the decoded blocks: of the recorded lengths, and what reading a block gives where it succeeds and has the
checksum. -/
structure Decoded (ps : List Bytes) : Prop where
  lengths : ps.map List.length = r.index.block.map BlockEntry.sizePlain
  reads : ∀ {i block plain}, r.index.block[i]? = some block → r.readBlock K block i engine = .ok plain →
    K.blake3 plain = block.checksum → ps[i]? = some plain

variable (K r engine) in
/-- Every block can be read and has its checksum. -/
def Readable : Prop := ∀ i block, r.index.block[i]? = some block →
  ∃ plain, r.readBlock K block i engine = .ok plain ∧ K.blake3 plain = block.checksum

variable (K r engine) in
/-- The decoded blocks, with zeros where a block cannot be read. -/
def decodedBlocks : List Bytes := r.index.block.mapIdx fun i block =>
  match r.readBlock K block i engine with
  | .ok plain => plain
  | .error _ => List.replicate block.sizePlain 0

variable (K r engine) in
theorem decoded_decodedBlocks : r.Decoded K engine (r.decodedBlocks K engine) where
  lengths := by
    unfold decodedBlocks
    refine List.ext_getElem? fun i => ?_
    rw [List.getElem?_map, List.getElem?_mapIdx, List.getElem?_map]
    cases hb : r.index.block[i]? with
    | none => rfl
    | some block =>
      simp only [Option.map_some]
      cases hr : r.readBlock K block i engine with
      | ok plain => rw [(readBlock_ok.1 hr).2]
      | error e => simp
  reads := by
    intro i block plain hb hr _
    simp [decodedBlocks, hb, hr]

/-- The slice of an overlapping block. -/
theorem blockSlice_ok {block : BlockEntry} {a b i start : Nat} {piece : Bytes} (hab : a ≤ b)
    (hover : ¬(start + block.sizePlain ≤ a ∨ b ≤ start)) :
    r.blockSlice K a b engine block i start (start + block.sizePlain) = .ok piece ↔
      ∃ plain, r.readBlock K block i engine = .ok plain ∧ K.blake3 plain = block.checksum ∧
        piece = slice (a - start) (min (start + block.sizePlain) b - start - (a - start)) plain := by
  unfold blockSlice
  simp only [Except.bind_eq_ok, failIf_ok, not_not, Nat.min_comm b]
  constructor
  · rintro ⟨plain, hread, _, hsum, _, _, h⟩
    exact ⟨plain, hread, hsum, (Except.ok.inj h).symm⟩
  · rintro ⟨plain, hread, hsum, rfl⟩
    have hlen := (readBlock_ok.1 hread).2
    exact ⟨plain, hread, (), hsum, (), by omega, rfl⟩

/-- From the `n`-th block on. -/
theorem Decoded.drop_cons {ps : List Bytes} (hdec : r.Decoded K engine ps) {n : Nat} {block : BlockEntry}
    {bs : List BlockEntry} (hbs : r.index.block.drop n = block :: bs) :
    r.index.block[n]? = some block ∧ r.index.block.drop (n + 1) = bs ∧
      ∃ p, ps[n]? = some p ∧ p.length = block.sizePlain ∧ ps.drop n = p :: ps.drop (n + 1) := by
  have hblock : r.index.block[n]? = some block := by
    have := congrArg List.head? hbs
    rwa [List.head?_drop, List.head?_cons] at this
  refine ⟨hblock, by rw [← List.tail_drop, hbs, List.tail_cons], ?_⟩
  obtain ⟨p, hp, hplen⟩ : ∃ p, ps[n]? = some p ∧ p.length = block.sizePlain := by
    have := congrArg (fun l : List Nat => l[n]?) hdec.lengths
    simp only [List.getElem?_map, hblock, Option.map_some] at this
    exact Option.map_eq_some_iff.1 this
  refine ⟨p, hp, hplen, ?_⟩
  obtain ⟨hn, rfl⟩ := List.getElem?_eq_some_iff.1 hp
  exact List.drop_eq_getElem_cons hn

/-- After the last block there are none. -/
theorem Decoded.drop_nil {ps : List Bytes} (hdec : r.Decoded K engine ps) {n : Nat} (hbs : r.index.block.drop n = []) :
    ps.drop n = [] := by
  have hlen := congrArg List.length hdec.lengths
  rw [List.length_map, List.length_map] at hlen
  rw [List.drop_eq_nil_iff] at hbs ⊢
  omega

theorem new_engine {e : DecompressingEngine} (h : DecompressingEngine.new K r.header.compression = .ok e) :
    e = r.engine := by
  unfold DecompressingEngine.new at h
  split at h
  · cases h
  · cases h; rfl

/-- The blocks that the loop of an entry reads, and their window. -/
theorem pick_entry {ps : List Bytes} (hdec : r.Decoded K engine ps) (off size : Nat) :
    let k := partitionPoint (fun b => b.2 ≤ off) (buildBlockRanges r.index.block)
    (pick off (off + size) (located (((r.index.block.take k).map BlockEntry.sizePlain).sum) (ps.drop k))).flatten
      = slice off size ps.flatten := by
  intro k
  have hk : k = skipped off (ranges 0 (ps.map List.length)) := by
    rw [hdec.lengths, ← buildBlockRanges_eq]; rfl
  rw [← flatten_pick_skipped off size ps, ← hk, List.map_take, List.map_take, hdec.lengths]

/-! ## Decoding an entry -/

variable (K r) in
/-- The slices that the loop of `extractFile` writes, joined. -/
def collectBlocks (fileStart fileEnd : Nat) (engine : DecompressingEngine) : List ((Nat × Nat) × Nat) → Result Bytes
  | [] => .ok []
  | ((start, stop), i) :: rest =>
    match r.index.block[i]? with
    | none => .error .deserializationFailed
    | some block =>
      if stop ≤ fileStart ∨ start ≥ fileEnd then .ok []
      else do
        let piece ← r.blockSlice K fileStart fileEnd engine block i start stop
        let pieces ← collectBlocks fileStart fileEnd engine rest
        .ok (piece ++ pieces)

variable (K r) in
/-- The bytes in the range of an entry. -/
def decodeEntry (f : FileEntry) : Result Bytes := do
  let blocks := buildBlockRanges r.index.block
  let first := partitionPoint (fun b => b.2 ≤ f.streamOffset) blocks
  let engine ← DecompressingEngine.new K r.header.compression
  r.collectBlocks K f.streamOffset (f.streamOffset + f.size) engine (blocks.zipIdx.drop first)

/-- When every block can be read the slices are the window. -/
theorem collectBlocks_eq {ps : List Bytes} (hdec : r.Decoded K engine ps) (hread : r.Readable K engine) {a b : Nat}
    (hab : a ≤ b) : ∀ (bs : List BlockEntry) (n s : Nat), r.index.block.drop n = bs →
    r.collectBlocks K a b engine ((buildBlockRanges.go s bs).zipIdx n)
      = .ok (pick a b (located s (ps.drop n))).flatten
  | [], n, s, hbs => by
    rw [hdec.drop_nil hbs]; rfl
  | block :: bs, n, s, hbs => by
    obtain ⟨hblock, hbs', p, hp, hplen, hps⟩ := hdec.drop_cons hbs
    obtain ⟨plain, hplain, hsum⟩ := hread n block hblock
    obtain rfl : p = plain := Option.some.inj (hp.symm.trans (hdec.reads hblock hplain hsum))
    rw [hps, located_cons, hplen, pick]
    show r.collectBlocks K a b engine (((s, s + block.sizePlain), n) ::
      (buildBlockRanges.go (s + block.sizePlain) bs).zipIdx (n + 1)) = _
    rw [collectBlocks, hblock]
    dsimp only
    by_cases hover : s + block.sizePlain ≤ a ∨ b ≤ s
    · rw [if_pos hover, if_pos hover]; rfl
    · rw [if_neg hover, if_neg hover, (blockSlice_ok hab hover).2 ⟨p, hplain, hsum, rfl⟩, Except.ok_bind,
        collectBlocks_eq hdec hread hab bs (n + 1) _ hbs']
      rfl

/-- **The range of an entry** is the window of the decoded blocks. -/
theorem decodeEntry_eq {ps : List Bytes} (hdec : r.Decoded K r.engine ps) (hread : r.Readable K r.engine)
    (hengine : DecompressingEngine.new K r.header.compression = .ok r.engine) (f : FileEntry) :
    r.decodeEntry K f = .ok (slice f.streamOffset f.size ps.flatten) := by
  unfold decodeEntry
  rw [hengine, Except.ok_bind, ← pick_entry hdec, buildBlockRanges, drop_blockRanges, Nat.zero_add, Nat.zero_add,
    ← buildBlockRanges]
  exact collectBlocks_eq hdec hread (Nat.le_add_right _ _) _ _ _ rfl

/-! ## The loop -/

/-- **The loop writes the window**: all of it when it ends well, and a prefix of it at every moment. It ends well when
no call fails and its slices can be cut out, and whether the writer holds something back then depends on their
lengths. -/
theorem wp_extractBlocks {ps : List Bytes} (hdec : r.Decoded K engine ps) {l : Loc} {n a b : Nat} (hab : a ≤ b) :
    ∀ (bs : List BlockEntry) (i start : Nat) (d : Bytes) (s : World × BufWriter), r.index.block.drop i = bs →
    BufWriter.Holds l n d s →
    let loop := (buildBlockRanges.go start bs).zipIdx i
    let pieces := pick a b (located start (ps.drop i))
    Act.wp (r.extractBlocks K a b engine loop)
      (fun _ s' => s.1.Leads (Writing l (d ++ pieces.flatten)) s'.1 ∧ BufWriter.Holds l n (d ++ pieces.flatten) s' ∧
        s'.2.busy = BufWriter.held n s.2.busy (pieces.map List.length) ∧
        r.collectBlocks K a b engine loop = .ok pieces.flatten)
      (fun _ s' => s.1.Leads (Writing l (d ++ pieces.flatten)) s'.1 ∧
        (∃ d', d' <+: d ++ pieces.flatten ∧ BufWriter.Holds l n d' s') ∧
        ¬(s.1.Reliable ∧ ∃ c, r.collectBlocks K a b engine loop = .ok c)) s
  | [], i, start, d, s, hbs, h => by
    rw [hdec.drop_nil hbs]
    show Act.wp (pure ()) _ _ s
    rw [Act.wp_pure]
    exact ⟨World.Leads.refl _ _, by simpa [located, ranges, pick] using h, rfl, rfl⟩
  | block :: bs, i, start, d, s, hbs, h => by
    obtain ⟨hblock, hbs', p, hp, hplen, hps⟩ := hdec.drop_cons hbs
    have hloop : (buildBlockRanges.go start (block :: bs)).zipIdx i = ((start, start + block.sizePlain), i) ::
        (buildBlockRanges.go (start + block.sizePlain) bs).zipIdx (i + 1) := rfl
    dsimp only
    rw [hps, located_cons, hplen, pick, hloop, extractBlocks, collectBlocks, hblock]
    dsimp only
    by_cases hover : start + block.sizePlain ≤ a ∨ b ≤ start
    · rw [if_pos hover, if_pos hover, if_pos hover, Act.wp_pure]
      exact ⟨World.Leads.refl _ _, by simpa using h, rfl, rfl⟩
    rw [if_neg hover, if_neg hover, if_neg hover, Act.wp_bind]
    refine (Act.wp_lift _).2 ⟨fun piece hpiece => ?_, fun e he => ?_⟩
    swap
    · refine ⟨World.Leads.refl _ _, ⟨d, List.prefix_append _ _, h⟩, ?_⟩
      rintro ⟨_, c, hc⟩
      obtain ⟨piece, hpiece, _⟩ := Except.bind_eq_ok.1 hc
      rw [hpiece] at he
      cases he
    -- the block was read: its slice is written, and the loop goes on
    have hpiece := Except.mapError_eq_ok.1 hpiece
    rw [hpiece, Except.ok_bind]
    obtain ⟨plain, hread, hsum, rfl⟩ := (blockSlice_ok hab hover).1 hpiece
    obtain rfl : p = plain := Option.some.inj (hp.symm.trans (hdec.reads hblock hread hsum))
    rw [List.flatten_cons, ← List.append_assoc, Act.wp_bind, wp_osCall, List.map_cons,
      BufWriter.held_cons]
    generalize slice (a - start) _ p = piece
    refine Act.wp_mono (h.writeAll piece) ?_ ?_
    · rintro _ s₁ ⟨h₁, hl₁, hbusy⟩
      have hl₁ := hl₁.mono fun _ => Writing.mono (List.prefix_append _
        (pick a b (located (start + block.sizePlain) (ps.drop (i + 1)))).flatten)
      refine Act.wp_mono (wp_extractBlocks hdec hab bs (i + 1) (start + block.sizePlain) _ s₁ hbs' h₁) ?_ ?_
      · rintro _ s₂ ⟨hl₂, h₂, hheld, hcollect⟩
        refine ⟨hl₁.trans hl₂, h₂, ?_, by rw [hcollect]; rfl⟩
        rw [hheld, hbusy]
      · rintro e s₂ ⟨hl₂, hprefix, hbad⟩
        refine ⟨hl₁.trans hl₂, hprefix, ?_⟩
        rintro ⟨hrel, c, hc⟩
        obtain ⟨c', hc', _⟩ := Except.bind_eq_ok.1 hc
        exact hbad ⟨hl₁.reliable hrel, c', hc'⟩
    · rintro e s₁ ⟨hl₁, hbad, d', hd', h₁⟩
      exact ⟨hl₁.mono fun _ => Writing.mono (List.prefix_append _ _), ⟨d', hd'.trans (List.prefix_append _ _), h₁⟩,
        fun hgood => hbad hgood.1⟩

/-! ## Regular files -/

variable (r) in
/-- The lengths of the slices of an entry. -/
def sliceLengths (f : FileEntry) : List Nat :=
  ((buildBlockRanges r.index.block).filter fun range => Touches f.streamOffset (f.streamOffset + f.size) range).map
    (overlap f.streamOffset (f.streamOffset + f.size))

variable (r) in
/-- Some bytes of the entry are still buffered when its mode is set. -/
def heldBack (f : FileEntry) : Bool := BufWriter.held r.header.blockSize false (r.sliceLengths f)

variable (r) in
/-- The mode that an extracted file has in the end. -/
def fileMode (p : Process) (f : FileEntry) : Nat :=
  if r.heldBack f then p.written (p.granted f.permissions) else p.granted f.permissions

theorem fileMode_lt (p : Process) (f : FileEntry) : r.fileMode p f < 0o10000 := by
  have hgranted := Nat.lt_of_le_of_lt (Process.granted_le (p := p)) (Nat.mod_lt f.permissions (by decide))
  unfold fileMode
  split
  · exact Nat.lt_of_le_of_lt Process.written_le hgranted
  · exact hgranted

/-- More blocks change nothing for an entry that lies in those before them. -/
theorem fileMode_append {r' : ArchiveReader} {f : FileEntry} {zs : List Nat}
    (hblocks : r'.index.block.map BlockEntry.sizePlain = r.index.block.map BlockEntry.sizePlain ++ zs)
    (hsize : r'.header.blockSize = r.header.blockSize)
    (hin : f.streamOffset + f.size ≤ (r.index.block.map BlockEntry.sizePlain).sum) (p : Process) :
    r'.fileMode p f = r.fileMode p f := by
  unfold fileMode heldBack sliceLengths
  rw [hsize, buildBlockRanges_eq, buildBlockRanges_eq, hblocks, overlaps_append (by rwa [Nat.zero_add])]

/-- The mode of an entry survives exactly when neither its setting nor what is written after it takes a bit of it. -/
theorem fileMode_eq_iff {p : Process} {f : FileEntry} :
    r.fileMode p f = f.permissions % 0o10000 ↔ p.KeepsMode (r.heldBack f) f.permissions := Process.KeepsMode.iff

variable (K r) in
/-- What the archive must allow for a regular file to be extracted. -/
def Decodable (f : FileEntry) : Prop :=
  (∃ d, r.decodeEntry K f = .ok d) ∧ r.header.blockSize < 2 ^ 63 ∧ f.timestamp < 2 ^ 63

variable (K r) in
/-- Nothing stops the extraction of a regular file to `outDir`. -/
structure Extractable (f : FileEntry) (outDir : Path) (w : World) : Prop where
  reliable : w.Reliable
  readable : r.Readable K r.engine
  engine : DecompressingEngine.new K r.header.compression = .ok r.engine
  buffer : r.header.blockSize < 2 ^ 63
  time : f.timestamp < 2 ^ 63
  writable : w.Writable outDir

theorem Extractable.decodable {f : FileEntry} {outDir : Path} {w : World} (h : r.Extractable K f outDir w) :
    r.Decodable K f :=
  ⟨⟨_, decodeEntry_eq (decoded_decodedBlocks K r r.engine) h.readable h.engine f⟩, h.buffer, h.time⟩

/-- A change to the file where `outDir` leads, which then holds a prefix of `full`. -/
def AtOutput (w : World) (outDir : Path) (full : Bytes) (ch : Change) : Prop :=
  ∃ l, w.resolve true outDir = .ok l ∧ w.fs.isDir l = false ∧ Writing l full ch

/-- The slices of an entry have the lengths of its overlaps with the blocks. -/
theorem lengths_entry {ps : List Bytes} (hdec : r.Decoded K engine ps) (f : FileEntry) :
    let k := partitionPoint (fun b => b.2 ≤ f.streamOffset) (buildBlockRanges r.index.block)
    (pick f.streamOffset (f.streamOffset + f.size)
      (located (((r.index.block.take k).map BlockEntry.sizePlain).sum) (ps.drop k))).map List.length
      = r.sliceLengths f := by
  intro k
  have hk : k = skipped f.streamOffset (ranges 0 (r.index.block.map BlockEntry.sizePlain)) := by
    rw [← buildBlockRanges_eq]
    rfl
  unfold sliceLengths
  rw [lengths_pick (Nat.le_add_right _ _), List.map_drop, hdec.lengths, List.map_take, buildBlockRanges_eq,
    ← touching_eq_filter, ← hk, ranges_drop, Nat.zero_add]

/-- The loop for an entry, from the first block that ends after its start. -/
theorem wp_extractBlocks_entry {ps : List Bytes} (hdec : r.Decoded K engine ps) (f : FileEntry) {l : Loc} {n : Nat}
    {s : World × BufWriter} (h : BufWriter.Holds l n [] s) :
    let full := slice f.streamOffset f.size ps.flatten
    let loop := (buildBlockRanges r.index.block).zipIdx.drop
      (partitionPoint (fun b => b.2 ≤ f.streamOffset) (buildBlockRanges r.index.block))
    Act.wp (r.extractBlocks K f.streamOffset (f.streamOffset + f.size) engine loop)
      (fun _ s' => s.1.Leads (Writing l full) s'.1 ∧ BufWriter.Holds l n full s' ∧
        s'.2.busy = BufWriter.held n s.2.busy (r.sliceLengths f) ∧
        r.collectBlocks K f.streamOffset (f.streamOffset + f.size) engine loop = .ok full)
      (fun _ s' => s.1.Leads (Writing l full) s'.1 ∧ (∃ d', d' <+: full ∧ BufWriter.Holds l n d' s') ∧
        ¬(s.1.Reliable ∧
          ∃ c, r.collectBlocks K f.streamOffset (f.streamOffset + f.size) engine loop = .ok c)) s := by
  intro full loop
  let k := partitionPoint (fun b => b.2 ≤ f.streamOffset) (buildBlockRanges r.index.block)
  have hloop : loop = (buildBlockRanges.go ((r.index.block.take k).map BlockEntry.sizePlain).sum
      (r.index.block.drop k)).zipIdx k := by
    have hdrop := drop_blockRanges k 0 0 r.index.block
    rwa [Nat.zero_add, Nat.zero_add] at hdrop
  have hpick := pick_entry hdec f.streamOffset f.size
  have hlengths := lengths_entry hdec f
  have hwp := wp_extractBlocks hdec (Nat.le_add_right f.streamOffset f.size) (r.index.block.drop k) k
    ((r.index.block.take k).map BlockEntry.sizePlain).sum [] s rfl h
  dsimp only at hwp
  rwa [hpick, hlengths, ← hloop, List.nil_append] at hwp

/-- What follows the loop sets the mode, before the bytes that are held back are written, and the time. -/
theorem wp_finishRegular {full : Bytes} {l : Loc} {n : Nat} {s : World × BufWriter} (h : BufWriter.Holds l n full s)
    {outDir : Path} (hres : s.1.resolve true outDir = .ok l) (permissions : Nat) (time : Int) :
    Act.wp (finishRegular outDir permissions time)
      (fun _ s' => s.1.Leads (Writing l full) (s'.2.dropped s'.1) ∧ (s'.2.dropped s'.1).fs l = some (.file full
        (if s.2.busy then s.1.process.written (s.1.process.granted permissions) else s.1.process.granted permissions)
        time))
      (fun _ s' => s.1.Leads (Writing l full) (s'.2.dropped s'.1) ∧ ¬ s.1.Reliable) s := by
  obtain ⟨hfile, _, c, m, t, hfs, hfull⟩ := id h
  unfold finishRegular
  rw [Act.wp_bind, Act.wp_onFst, wp_osCall]
  refine wp_setPermissions hres hfs ?_ fun e hbad => ⟨(World.Leads.tick _ _).trans h.tick.leads_dropped, hbad⟩
  -- then the buffer is written out
  have hmode := World.Leads.emit (P := Writing l full) (x := some (.file c (s.1.process.granted permissions) t)) s.1
    ⟨rfl, c, _, t, rfl, ⟨_, hfull⟩⟩
  have h₁ := h.emit hfs (s.1.process.granted permissions) t
  have hfs₁ : (s.1.tick.emit l (some (.file c (s.1.process.granted permissions) t))).fs l
      = some (.file c (s.1.process.granted permissions) t) := Function.update_self _ _ _
  generalize s.1.tick.emit l (some (.file c (s.1.process.granted permissions) t)) = w₁ at hmode h₁ hfs₁ ⊢
  unfold BufWriter.intoInner
  rw [Act.wp_bind, wp_osCall, Act.wp_bind]
  rw [← hfile] at hfs₁
  refine Act.wp_mono (Act.wp_and (BufWriter.wp_flushBuf hfs₁) h₁.flush) ?_ ?_
  swap
  · rintro e s₂ ⟨⟨_, hbad, _⟩, h₂, hl₂, _⟩
    exact ⟨(hmode.trans hl₂).trans h₂.leads_dropped, fun hrel => hbad (hmode.reliable hrel)⟩
  rintro _ s₂ ⟨⟨_, hbuf, t₂, hfs₂⟩, h₂, hl₂, hempty⟩
  rw [Act.wp_read, Act.wp_onFst, wp_osCall, h₂.file]
  rw [hfile, hfull] at hfs₂
  have hl₂ := hmode.trans hl₂
  refine wp_setModified hfs₂ ?_ fun e hbad => ⟨?_, fun hrel => hbad (hl₂.reliable hrel)⟩
  · rw [BufWriter.dropped_empty hempty]
    refine ⟨hl₂.trans (World.Leads.emit _ ⟨rfl, full, _, time, rfl, List.prefix_refl _⟩), ?_⟩
    rw [World.emit_fs, Function.update_self, hmode.process]
    unfold BufWriter.busy
    by_cases hnil : s.2.buf = [] <;> simp [hnil]
  · rw [BufWriter.dropped_empty hempty]
    exact hl₂.trans (World.Leads.tick _ _)

/-- **What is done with the writer** of an empty file leaves the window of the entry in it, with its mode and time. -/
theorem wp_writeRegular {ps : List Bytes} (hdec : r.Decoded K r.engine ps) (f : FileEntry) {outDir : Path} {l : Loc}
    {s : World × BufWriter} (hres : s.1.resolve true outDir = .ok l)
    (h : BufWriter.Holds l r.header.blockSize [] s) (hempty : s.2.busy = false) :
    let full := slice f.streamOffset f.size ps.flatten
    Act.wp (r.writeRegular K f (f.streamOffset + f.size) outDir (buildBlockRanges r.index.block))
      (fun _ s' => s.1.Leads (Writing l full) (s'.2.dropped s'.1) ∧
        (r.decodeEntry K f = .ok full ∧ f.timestamp < 2 ^ 63) ∧
        (s'.2.dropped s'.1).fs l = some (.file full (r.fileMode s.1.process f) f.timestamp))
      (fun _ s' => s.1.Leads (Writing l full) (s'.2.dropped s'.1) ∧
        ¬(s.1.Reliable ∧ (∃ d, r.decodeEntry K f = .ok d) ∧ f.timestamp < 2 ^ 63)) s := by
  intro full
  have hstart : s.1.Leads (Writing l full) (s.2.dropped s.1) :=
    h.leads_dropped.mono fun _ => Writing.mono List.nil_prefix
  unfold writeRegular
  rw [Act.wp_bind]
  refine (Act.wp_lift _).2 ⟨fun time htime => ?_, fun e he => ⟨hstart, fun hgood => ?_⟩⟩
  swap
  · rw [systemTime_ok.2 ⟨hgood.2.2, rfl⟩] at he
    cases he
  obtain ⟨hstamp, rfl⟩ := systemTime_ok.1 htime
  rw [Act.wp_bind]
  refine (Act.wp_lift _).2 ⟨fun engine hengine => ?_, fun e he => ⟨hstart, fun ⟨_, ⟨d, hd⟩, _⟩ => ?_⟩⟩
  swap
  · obtain ⟨engine, hengine, _⟩ := Except.bind_eq_ok.1 hd
    rw [hengine] at he
    cases he
  have hengine := Except.mapError_eq_ok.1 hengine
  obtain rfl := new_engine hengine
  have hdecode : r.decodeEntry K f = r.collectBlocks K f.streamOffset (f.streamOffset + f.size) r.engine
      ((buildBlockRanges r.index.block).zipIdx.drop
        (partitionPoint (fun b => b.2 ≤ f.streamOffset) (buildBlockRanges r.index.block))) := by
    unfold decodeEntry
    rw [hengine]
    rfl
  -- the loop fills the file and the buffer
  rw [Act.wp_bind, hdecode]
  refine Act.wp_mono (wp_extractBlocks_entry hdec f h) ?_ ?_
  swap
  · rintro e s₁ ⟨hl₁, ⟨d, hd, h₁⟩, hbad⟩
    exact ⟨hl₁.trans (h₁.leads_dropped.mono fun _ => Writing.mono hd), fun hgood => hbad ⟨hgood.1, hgood.2.1⟩⟩
  rintro _ s₁ ⟨hl₁, h₁, hbusy, hcollect⟩
  obtain ⟨c, m, t, hfs, _⟩ := h.node
  have hres₁ : s₁.1.resolve true outDir = .ok l := by
    unfold World.resolve
    rw [hl₁.cwd]
    exact FS.resolve_grows (Writing.grows hfs hl₁).1 hres
  refine Act.wp_mono (wp_finishRegular h₁ hres₁ f.permissions f.timestamp) ?_ ?_
  · rintro _ s₂ ⟨hl₂, hfs₂⟩
    refine ⟨hl₁.trans hl₂, ⟨hcollect, hstamp⟩, ?_⟩
    rw [hfs₂, hbusy, hempty, hl₁.process]
    rfl
  · rintro e s₂ ⟨hl₂, hbad⟩
    exact ⟨hl₁.trans hl₂, fun hgood => hbad (hl₁.reliable hgood.1)⟩

/-- **The extraction of a regular file** leaves the window of the entry with its mode and time where the output path
leads; at every moment it has written a prefix of it, and nothing else. -/
theorem wp_extractRegular {ps : List Bytes} (hdec : r.Decoded K r.engine ps) (f : FileEntry) (outDir : Path)
    (w : World) :
    Act.wp (r.extractRegular K f (f.streamOffset + f.size) outDir (buildBlockRanges r.index.block))
      (fun _ w' => w.Leads (AtOutput w outDir (slice f.streamOffset f.size ps.flatten)) w' ∧
        (r.decodeEntry K f = .ok (slice f.streamOffset f.size ps.flatten) ∧ r.Decodable K f) ∧
        ∃ l, w.resolve true outDir = .ok l ∧ FS.Grows w.fs w'.fs ∧ w'.fs l = some (.file
          (slice f.streamOffset f.size ps.flatten) (r.fileMode w.process f) f.timestamp))
      (fun _ w' => w.Leads (AtOutput w outDir (slice f.streamOffset f.size ps.flatten)) w' ∧
        ¬(w.Reliable ∧ w.Writable outDir ∧ r.Decodable K f)) w := by
  unfold extractRegular
  rw [Act.wp_bind, wp_osCall]
  refine wp_createFile (fun l m hres hkind => ?_) fun e he =>
    ⟨World.Leads.tick _ w, fun h => he ⟨h.1, h.2.1⟩⟩
  -- the file is there and empty
  have hnotDir : w.fs.isDir l = false := by
    rcases hkind with h | ⟨_, _, _, h⟩ <;> simp [FS.isDir, h]
  have hout : ∀ {ch}, Writing l (slice f.streamOffset f.size ps.flatten) ch →
      AtOutput w outDir (slice f.streamOffset f.size ps.flatten) ch := fun h => ⟨l, hres, hnotDir, h⟩
  have hcreate : w.Leads (Writing l (slice f.streamOffset f.size ps.flatten))
      (w.tick.emit l (some (.file [] m w.now))) := World.Leads.emit w ⟨rfl, _, _, _, rfl, List.nil_prefix⟩
  have hgrow : FS.Grows w.fs (w.tick.emit l (some (.file [] m w.now))).fs := by
    refine FS.grows_update ?_
    rcases hkind with h | ⟨_, _, _, h⟩
    · exact .inr ⟨h, by simp⟩
    · exact .inl (by rw [h]; rfl)
  have hfile : (w.tick.emit l (some (.file [] m w.now))).fs l = some (.file [] m w.now) := Function.update_self _ _ _
  generalize w.tick.emit l (some (.file [] m w.now)) = w₁ at hcreate hgrow hfile ⊢
  rw [Act.wp_bind]
  refine (Act.wp_lift _).2 ⟨fun _ halloc => ?_, fun e he => ⟨hcreate.mono fun _ => hout, fun h => ?_⟩⟩
  swap
  · rw [allocBuffer_ok.2 h.2.2.2.1] at he
    cases he
  have hres₁ : w₁.resolve true outDir = .ok l := by
    unfold World.resolve
    rw [hcreate.cwd]
    exact FS.resolve_grows hgrow hres
  -- then the writer fills it
  unfold BufWriter.within
  rw [Act.wp_zoom]
  refine Act.wp_mono (wp_writeRegular hdec f (s := (w₁, .withCapacity r.header.blockSize l)) hres₁
    ⟨rfl, rfl, [], m, w.now, hfile, rfl⟩ rfl) ?_ ?_
  · rintro _ s ⟨hl, ⟨hdecode, hstamp⟩, hfs⟩
    refine ⟨(hcreate.trans hl).mono fun _ => hout, ⟨hdecode, ⟨_, hdecode⟩, allocBuffer_ok.1 halloc, hstamp⟩, l, hres,
      hgrow.trans (Writing.grows hfile hl).1, ?_⟩
    rw [hfs, hcreate.process]
  · rintro e s ⟨hl, hbad⟩
    exact ⟨(hcreate.trans hl).mono fun _ => hout, fun h => hbad ⟨hcreate.reliable h.1, h.2.2.1, h.2.2.2.2⟩⟩

theorem checkEntry_ok {f : FileEntry} {fileEnd : Nat} : r.checkEntry f = .ok fileEnd ↔
    f.size ≤ r.limits.effMaxFile ∧ f.streamOffset + f.size < 2 ^ 64 ∧ fileEnd = f.streamOffset + f.size := by
  unfold checkEntry fileRange
  rw [Except.bind_eq_ok]
  constructor
  · rintro ⟨_, hsize, h⟩
    split at h
    · exact ⟨Nat.not_lt.1 (failIf_ok.1 hsize), by assumption, (Except.ok.inj h).symm⟩
    · cases h
  · rintro ⟨hsize, hfit, rfl⟩
    exact ⟨(), failIf_neg (Nat.not_lt.2 hsize), if_pos hfit⟩

/-- An entry that fits is accepted. -/
theorem checkEntry_bind {α : Type} {f : FileEntry} (hsize : f.size ≤ r.limits.effMaxFile)
    (hrange : f.streamOffset + f.size < 2 ^ 64) (g : Nat → ExtractM α) :
    (liftResult (r.checkEntry f) >>= g) = g (f.streamOffset + f.size) := by
  rw [checkEntry_ok.2 ⟨hsize, hrange, rfl⟩, liftResult_ok_bind]

/-- Making the parent of an output path makes directories only. -/
theorem createParent_leads {P : Change → Prop} (hP : ∀ l m, P ⟨l, some (.dir m)⟩) (outDir : Path) (w : World) :
    Act.wp (createParent outDir) (fun _ w' => w.Leads P w') (fun _ w' => w.Leads P w') w := by
  unfold createParent
  split
  · rw [wp_osCall]
    exact createDirAllRev_leads hP _ w
  · exact World.Leads.refl _ w

/-- **What a successful extraction of a regular file leaves.** -/
theorem extractFile_ok {ps : List Bytes} (hdec : r.Decoded K r.engine ps) {f : FileEntry} (hf : f.ftype = .file)
    {outDir : Path} {w w' : World} (h : r.extractFile K f outDir (buildBlockRanges r.index.block) w = (.ok (), w')) :
    ∃ l, w'.resolve true outDir = .ok l ∧ w'.fs l = some
      (.file (slice f.streamOffset f.size ps.flatten) (r.fileMode w.process f) f.timestamp) := by
  unfold extractFile at h
  obtain ⟨fileEnd, _, hlift, h⟩ := Act.bind_eq_ok.1 h
  obtain ⟨hcheck, rfl⟩ := Act.lift_eq_ok.1 hlift
  obtain ⟨_, _, rfl⟩ := checkEntry_ok.1 (Except.mapError_eq_ok.1 hcheck)
  obtain ⟨_, w₁, hparent, h⟩ := Act.bind_eq_ok.1 h
  rw [hf] at h
  obtain ⟨hl, _, l, hres, hgrow, hfile⟩ := (Act.of_wp (wp_extractRegular hdec f outDir w₁)).1 () h
  have hdirs := (Act.of_wp (createParent_leads (P := fun _ => True) (fun _ _ => trivial) outDir _)).1 () hparent
  rw [hdirs.process] at hfile
  refine ⟨l, ?_, hfile⟩
  unfold World.resolve
  rw [hl.cwd]
  exact FS.resolve_grows hgrow hres

/-- **When a successful extraction is complete**: the entry is empty, or its range lies in the blocks. -/
theorem complete_iff {f : FileEntry} (hf : f.ftype = .file) {outDir : Path} {w w' : World}
    (h : r.extractFile K f outDir (buildBlockRanges r.index.block) w = (.ok (), w')) :
    (∃ l c m t, w'.resolve true outDir = .ok l ∧ w'.fs l = some (.file c m t) ∧ c.length = f.size ∧
      ∀ ps, r.Decoded K r.engine ps → c = slice f.streamOffset f.size ps.flatten) ↔
    f.size = 0 ∨ f.streamOffset + f.size ≤ (r.index.block.map BlockEntry.sizePlain).sum := by
  have hlen : ∀ ps, r.Decoded K r.engine ps → (slice f.streamOffset f.size ps.flatten).length
      = min f.size ((r.index.block.map BlockEntry.sizePlain).sum - f.streamOffset) := fun ps hdec => by
    rw [length_slice, List.length_flatten, hdec.lengths]
  have hdec := decoded_decodedBlocks K r r.engine
  obtain ⟨l, hres, hfile⟩ := extractFile_ok hdec hf h
  constructor
  · rintro ⟨l', c, m, t, hres', hfile', hc, _⟩
    rw [hres] at hres'
    cases hres'
    rw [hfile] at hfile'
    cases hfile'
    rw [hlen _ hdec] at hc
    omega
  · intro hin
    refine ⟨l, _, _, _, hres, hfile, by rw [hlen _ hdec]; omega, fun ps hps => ?_⟩
    obtain ⟨l', hres', hfile'⟩ := extractFile_ok hps hf h
    rw [hres] at hres'
    cases hres'
    exact (Node.file.inj (Option.some.inj (hfile.symm.trans hfile'))).1

end ArchiveReader

/-! ## An incomplete extraction -/

/-- An entry of five bytes in an archive without blocks. -/
def danglingEntry : FileEntry where
  path := [.normal "f"]
  ftype := .file
  streamOffset := 0
  size := 5
  timestamp := 0
  permissions := 0o644
  symlinkTarget := none

def danglingIndex : Index := ⟨[danglingEntry], [], 0⟩

def danglingReader : ArchiveReader where
  root := [.rootDir, .normal "out"]
  path := []
  reader := [0, 0, 0, 0] ++ Footer.serialize ⟨4, 0, 0, false, Vector.replicate 12 0⟩
  index := danglingIndex
  header := Header.stored 512
  cipher := .none
  limits := Limits.default

/-- **A successful extraction that writes nothing** of an entry of five bytes. -/
theorem extract_incomplete :
    let K := Crates.tabled [Header.stored 512] [danglingIndex]
    let r := danglingReader
    ArchiveReader.new K r.reader [] r.root Limits.default ⟨none, none⟩ false = .ok r ∧ danglingEntry ∈ r.index.files ∧
      let run := r.extractFile K danglingEntry (r.root ++ [.normal "f"]) (buildBlockRanges r.index.block)
        (World.ofDirs [[], ["out"]])
      run.1 = .ok () ∧ ¬∃ l c m t, run.2.resolve true (r.root ++ [.normal "f"]) = .ok l ∧
        run.2.fs l = some (.file c m t) ∧ c.length = danglingEntry.size := by
  refine ⟨by decide +kernel, by decide, by decide +kernel, ?_⟩
  rintro ⟨l, c, m, t, hres, hfile, hlen⟩
  obtain rfl : ["out", "f"] = l := Except.ok.inj (Eq.trans (by decide +kernel) hres)
  have hempty : some (Node.file c m t) = some (.file [] 0o644 0) := hfile.symm.trans (by decide +kernel)
  cases hempty
  cases hlen

/-- An entry whose range lies in the one block of its archive is extracted completely. -/
theorem complete_iff_one :
    let K := Crates.tabled [Header.stored 512] [declaredIndex 1]
    let r : ArchiveReader := { declaredReader 1 with root := [.rootDir, .normal "out"] }
    let f : FileEntry := { danglingEntry with size := 1 }
    let run := r.extractFile K f (r.root ++ [.normal "f"]) (buildBlockRanges r.index.block)
      (World.ofDirs [[], ["out"]])
    ∃ l c m t, run.2.resolve true (r.root ++ [.normal "f"]) = .ok l ∧ run.2.fs l = some (.file c m t) ∧
      c.length = f.size ∧ ∀ ps, r.Decoded K r.engine ps → c = slice f.streamOffset f.size ps.flatten := by
  intro K r f run
  have hok : run.1 = .ok () := by decide +kernel
  have hin : f.streamOffset + f.size ≤ (r.index.block.map BlockEntry.sizePlain).sum := by decide +kernel
  have hf : f.ftype = .file := rfl
  have hrun : r.extractFile K f (r.root ++ [.normal "f"]) (buildBlockRanges r.index.block)
      (World.ofDirs [[], ["out"]]) = (.ok (), run.2) := Act.run_of_ok hok
  exact (ArchiveReader.complete_iff hf hrun).2 (.inr hin)

end Cryo
