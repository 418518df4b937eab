import Cryo.Damage
import Cryo.Lib.Directories

/-!
# The blocks that an extraction reads

The loop of `extractFile` starts at the first block that ends after the start of the entry and stops at the first one
that starts at its end or later. The blocks in between (`visits`) are all that touch its window (`mem_visits`), and the
loop reads and writes their slices, one after another (`extractBlocks_eq`).

* `fast_path_eq_slice`: this gives the window of the concatenation of all blocks, without leaving a bound.
* `damage_confined_iff`: a block without a byte of the entry may be among them, when the entry or the block is empty;
  then damage to it is seen.
-/

namespace Cryo

open Posix Bytes Ranges

variable {K : Crates}

/-! ## The visits -/

/-- The blocks that the loop reads, with their ranges and numbers. -/
def visits (fileStart fileEnd : Nat) (blocks : List (Nat × Nat)) : List ((Nat × Nat) × Nat) :=
  (blocks.zipIdx.drop (partitionPoint (fun b => b.2 ≤ fileStart) blocks)).takeWhile fun v =>
    ¬(v.1.2 ≤ fileStart ∨ v.1.1 ≥ fileEnd)

/-- **The break comes after the last block that touches the window.** -/
theorem visits_eq (a b : Nat) (blocks : List BlockEntry) :
    visits a b (buildBlockRanges blocks) = (buildBlockRanges blocks).zipIdx.filter fun v => Touches a b v.1 := by
  unfold visits
  rw [buildBlockRanges_eq, ← visited_eq_filter 0 0]
  congr 1
  funext v
  rw [decide_eq_decide, ← not_touches, not_not]

/-- The blocks that are read are those that touch the window, each with its own number. -/
theorem mem_visits {a b i : Nat} {range : Nat × Nat} {blocks : List BlockEntry} :
    (range, i) ∈ visits a b (buildBlockRanges blocks) ↔
      (buildBlockRanges blocks)[i]? = some range ∧ Touches a b range := by
  rw [visits_eq, List.mem_filter, List.mk_mem_zipIdx_iff_getElem?, decide_eq_true_iff]

/-- The range of a block. -/
theorem getElem?_buildBlockRanges {blocks : List BlockEntry} {i : Nat} {range : Nat × Nat}
    (h : (buildBlockRanges blocks)[i]? = some range) :
    ∃ block, blocks[i]? = some block ∧ range.2 = range.1 + block.sizePlain := by
  rw [buildBlockRanges_eq] at h
  obtain ⟨hi, _⟩ := List.getElem?_eq_some_iff.1 h
  rw [length_ranges, List.length_map] at hi
  refine ⟨blocks[i], List.getElem?_eq_getElem hi, ?_⟩
  have hsize : (blocks.map BlockEntry.sizePlain)[i]? = some blocks[i].sizePlain := by
    rw [List.getElem?_map, List.getElem?_eq_getElem hi]
    rfl
  rw [getElem?_ranges 0 _ i hsize] at h
  cases h
  rfl

namespace ArchiveReader

variable {r : ArchiveReader} {engine : DecompressingEngine} {a b : Nat}

variable (K r) in
/-- Reading and writing the slices of blocks, without looking where to stop. -/
def writeSlices (fileStart fileEnd : Nat) (engine : DecompressingEngine) : List ((Nat × Nat) × Nat) → WriteM Unit
  | [] => pure ()
  | ((start, stop), i) :: rest =>
    match r.index.block[i]? with
    | none => Act.throw (.panic "index out of bounds")
    | some block => do
      let piece ← liftResult (r.blockSlice K fileStart fileEnd engine block i start stop)
      osCall .writeError (BufWriter.writeAll piece)
      writeSlices fileStart fileEnd engine rest

/-- The loop is that over the blocks before the break. -/
theorem extractBlocks_takeWhile : ∀ blocks : List ((Nat × Nat) × Nat), (∀ v ∈ blocks, r.index.block[v.2]? ≠ none) →
    r.extractBlocks K a b engine blocks
      = r.writeSlices K a b engine (blocks.takeWhile fun v => ¬(v.1.2 ≤ a ∨ v.1.1 ≥ b))
  | [], _ => rfl
  | ((start, stop), i) :: rest, h => by
    have hrest := extractBlocks_takeWhile rest fun v hv => h v (List.mem_cons_of_mem _ hv)
    obtain ⟨block, hblock⟩ := Option.ne_none_iff_exists'.1 (h _ List.mem_cons_self)
    unfold extractBlocks
    rw [hblock]
    dsimp only
    by_cases hstop : stop ≤ a ∨ start ≥ b
    · rw [if_pos hstop, List.takeWhile_cons_of_neg (by simpa only [decide_eq_true_iff, not_not] using hstop)]
      rfl
    · rw [if_neg hstop, List.takeWhile_cons_of_pos (by simpa only [decide_eq_true_iff] using hstop), writeSlices, hblock]
      simp only [hrest]

/-- **The loop reads the visits.** -/
theorem extractBlocks_eq (a b : Nat) (engine : DecompressingEngine) :
    r.extractBlocks K a b engine ((buildBlockRanges r.index.block).zipIdx.drop
        (partitionPoint (fun v => v.2 ≤ a) (buildBlockRanges r.index.block)))
      = r.writeSlices K a b engine (visits a b (buildBlockRanges r.index.block)) := by
  refine extractBlocks_takeWhile _ fun v hv => ?_
  have hrange := List.mk_mem_zipIdx_iff_getElem?.1 (List.mem_of_mem_drop hv)
  obtain ⟨block, hblock, _⟩ := getElem?_buildBlockRanges hrange
  simp [hblock]

end ArchiveReader

/-- The slices that were written could be read. -/
theorem ArchiveReader.writeSlices_ok {r : ArchiveReader} {engine : DecompressingEngine} {a b : Nat} :
    ∀ {visits : List ((Nat × Nat) × Nat)} {w w' : World × BufWriter},
    r.writeSlices K a b engine visits w = (.ok (), w') → ∀ start stop i, ((start, stop), i) ∈ visits →
      ∃ block piece, r.index.block[i]? = some block ∧ r.blockSlice K a b engine block i start stop = .ok piece
  | [], _, _, _, _, _, _, hv => by cases hv
  | ((start, stop), i) :: rest, w, w', h, start', stop', i', hv => by
    unfold writeSlices at h
    cases hblock : r.index.block[i]? with
    | none =>
      rw [hblock] at h
      cases h
    | some block =>
      rw [hblock] at h
      obtain ⟨piece, _, hpiece, h⟩ := Act.bind_eq_ok.1 h
      obtain ⟨_, _, _, h⟩ := Act.bind_eq_ok.1 h
      rcases List.mem_cons.1 hv with heq | hv
      · cases heq
        exact ⟨block, piece, hblock, Except.mapError_eq_ok.1 (Act.lift_eq_ok.1 hpiece).1⟩
      · exact writeSlices_ok h start' stop' i' hv

/-- Where nothing stops it, the extraction of a regular file succeeds. -/
theorem ArchiveReader.Extractable.exists_ok {r : ArchiveReader} {f : FileEntry} {outDir : Path} {w : World}
    (h : r.Extractable K f outDir w) : ∃ w', r.extractRegular K f (f.streamOffset + f.size) outDir
      (buildBlockRanges r.index.block) w = (.ok (), w') := by
  have hdec := decoded_decodedBlocks K r r.engine
  cases hrun : r.extractRegular K f (f.streamOffset + f.size) outDir (buildBlockRanges r.index.block) w with
  | mk result w' =>
    cases result with
    | ok _ => exact ⟨w', rfl⟩
    | error e =>
      obtain ⟨_, hbad⟩ := (Act.of_wp (wp_extractRegular hdec f outDir w)).2 e hrun
      exact absurd ⟨h.reliable, h.writable, h.decodable⟩ hbad

/-! ## The window -/

/-- **The fast path gives the naive slice.** All blocks can be read, and the entry lies in them: then the blocks that
are read are those from the binary search to the break, each is read under its own number and cut within its bounds, and
what an extraction leaves is the window of the concatenation. -/
theorem fast_path_eq_slice {r : ArchiveReader} (hread : r.Readable K r.engine) {f : FileEntry} (hf : f.ftype = .file)
    (hin : f.streamOffset + f.size ≤ (r.index.block.map BlockEntry.sizePlain).sum) :
    let blocks := buildBlockRanges r.index.block
    let fileEnd := f.streamOffset + f.size
    let naive := slice f.streamOffset f.size (r.decodedBlocks K r.engine).flatten
    naive.length = f.size ∧
    (r.extractBlocks K f.streamOffset fileEnd r.engine
        (blocks.zipIdx.drop (partitionPoint (fun v => v.2 ≤ f.streamOffset) blocks))
      = r.writeSlices K f.streamOffset fileEnd r.engine (visits f.streamOffset fileEnd blocks)) ∧
    (∀ start stop i, ((start, stop), i) ∈ visits f.streamOffset fileEnd blocks ↔
      blocks[i]? = some (start, stop) ∧ f.streamOffset < stop ∧ start < fileEnd) ∧
    (∀ start stop i, ((start, stop), i) ∈ visits f.streamOffset fileEnd blocks → ∃ block plain,
      r.index.block[i]? = some block ∧ r.readBlock K block i r.engine = .ok plain ∧
      (r.decodedBlocks K r.engine)[i]? = some plain ∧ start ≤ min fileEnd stop ∧
      f.streamOffset - start ≤ min fileEnd stop - start ∧ min fileEnd stop - start ≤ plain.length) ∧
    (∀ outDir w, r.Extractable K f outDir w → ∃ w', r.extractRegular K f fileEnd outDir blocks w = (.ok (), w')) ∧
    ∀ outDir w w', r.extractFile K f outDir blocks w = (.ok (), w') → ∃ l, w'.resolve true outDir = .ok l ∧
      w'.fs l = some (.file naive (r.fileMode w.process f) f.timestamp) := by
  intro blocks fileEnd naive
  have hdec := ArchiveReader.decoded_decodedBlocks K r r.engine
  refine ⟨?_, ArchiveReader.extractBlocks_eq _ _ _, fun start stop i => mem_visits,
    fun start stop i hvisit => ?_, fun outDir w hgood => hgood.exists_ok, fun outDir w w' hrun =>
    ArchiveReader.extractFile_ok hdec hf hrun⟩
  · have hlen : (r.decodedBlocks K r.engine).flatten.length = (r.index.block.map BlockEntry.sizePlain).sum := by
      rw [List.length_flatten, hdec.lengths]
    show (slice _ _ _).length = _
    rw [length_slice, hlen]
    omega
  · obtain ⟨hrange, htouch⟩ := mem_visits.1 hvisit
    obtain ⟨block, hblock, hstop⟩ := getElem?_buildBlockRanges hrange
    obtain ⟨plain, hplain, hsum⟩ := hread i block hblock
    have hsize := (ArchiveReader.readBlock_ok.1 hplain).2
    simp only at hstop
    subst hstop
    obtain ⟨h₁, h₂, h₃⟩ := Touches.in_bounds (Nat.le_add_right _ _) htouch
    exact ⟨block, plain, hblock, hplain, hdec.reads hblock hplain hsum, h₁, h₂, hsize ▸ h₃⟩

/-! ## Damage elsewhere -/

/-- The range holds a byte of `[off, off + size)`. -/
def HoldsByte (off size : Nat) (range : Nat × Nat) : Prop := ∃ x, range.1 ≤ x ∧ x < range.2 ∧ off ≤ x ∧ x < off + size

/-- Some range is visited that holds no byte: that around an empty window, or an empty one inside the window. -/
def Exposed (off size : Nat) (blocks : List (Nat × Nat)) : Prop := ∃ range ∈ blocks,
  (size = 0 ∧ range.1 < off ∧ off < range.2) ∨ (range.1 = range.2 ∧ off < range.1 ∧ range.1 < off + size)

instance (off size : Nat) (blocks : List (Nat × Nat)) : Decidable (Exposed off size blocks) :=
  inferInstanceAs (Decidable (∃ _ ∈ blocks, _))

theorem exposed_iff {off size : Nat} {zs : List Nat} :
    Exposed off size (ranges 0 zs) ↔ ∃ range ∈ ranges 0 zs, Touches off (off + size) range ∧
      ¬ HoldsByte off size range := by
  constructor
  · rintro ⟨range, hmem, ⟨rfl, hstart, hstop⟩ | ⟨hempty, hstart, hstop⟩⟩
    · exact ⟨range, hmem, ⟨hstop, hstart⟩, fun ⟨x, _, _, hx, hx'⟩ => by omega⟩
    · exact ⟨range, hmem, ⟨hempty ▸ hstart, hstop⟩, fun ⟨x, hx, hx', _⟩ => by omega⟩
  · rintro ⟨range, hmem, ⟨hstop, hstart⟩, hnone⟩
    have hle := (le_start hmem).2
    refine ⟨range, hmem, ?_⟩
    by_cases hsize : size = 0
    · exact .inl ⟨hsize, by omega, hstop⟩
    · -- the greater of both starts is in both
      have hmax : ¬ (max range.1 off < range.2 ∧ max range.1 off < off + size) := fun ⟨h, h'⟩ =>
        hnone ⟨max range.1 off, Nat.le_max_left _ _, h, Nat.le_max_right _ _, h'⟩
      exact .inr (by omega)

namespace ArchiveReader

variable {r : ArchiveReader} {engine : DecompressingEngine} {a b : Nat} {b₁ b₂ : Bytes}

/-- Two data regions agree on the stored bytes of every block that holds a byte of the entry. -/
def AgreeOn (r : ArchiveReader) (f : FileEntry) (b₁ b₂ : Bytes) : Prop :=
  ∀ (i : Nat) (block : BlockEntry) (range : Nat × Nat), r.index.block[i]? = some block →
  (buildBlockRanges r.index.block)[i]? = some range → HoldsByte f.streamOffset f.size range →
  readAt b₁ block.offset block.sizeStored = readAt b₂ block.offset block.sizeStored

/-- A slice depends on the stored bytes of its block. -/
theorem blockSlice_congr {block : BlockEntry} (h : readAt b₁ block.offset block.sizeStored =
    readAt b₂ block.offset block.sizeStored) (i start stop : Nat) :
    (r.withBytes b₁).blockSlice K a b engine block i start stop
      = (r.withBytes b₂).blockSlice K a b engine block i start stop := by
  unfold blockSlice readBlock withBytes
  dsimp only
  rw [h]

theorem writeSlices_congr : ∀ visits : List ((Nat × Nat) × Nat),
    (∀ start stop i block, ((start, stop), i) ∈ visits → r.index.block[i]? = some block →
      (r.withBytes b₁).blockSlice K a b engine block i start stop
        = (r.withBytes b₂).blockSlice K a b engine block i start stop) →
    (r.withBytes b₁).writeSlices K a b engine visits = (r.withBytes b₂).writeSlices K a b engine visits
  | [], _ => rfl
  | ((start, stop), i) :: rest, h => by
    have hrest := writeSlices_congr rest fun start stop i block hv => h start stop i block (List.mem_cons_of_mem _ hv)
    unfold writeSlices
    rw [withBytes_index, withBytes_index]
    cases hblock : r.index.block[i]? with
    | none => rfl
    | some block =>
      dsimp only
      rw [h start stop i block List.mem_cons_self hblock]
      simp only [hrest]

/-- **Damage elsewhere is not seen** when every visited block holds a byte of the entry. -/
theorem extractFile_congr {f : FileEntry} (hf : f.ftype = .file) (hagree : r.AgreeOn f b₁ b₂)
    (hexposed : ¬ Exposed f.streamOffset f.size (buildBlockRanges r.index.block)) (outDir : Path) :
    (r.withBytes b₁).extractFile K f outDir (buildBlockRanges r.index.block)
      = (r.withBytes b₂).extractFile K f outDir (buildBlockRanges r.index.block) := by
  have hvisit : ∀ range i block, (range, i) ∈ visits f.streamOffset (f.streamOffset + f.size)
      (buildBlockRanges r.index.block) → r.index.block[i]? = some block →
      readAt b₁ block.offset block.sizeStored = readAt b₂ block.offset block.sizeStored := by
    intro range i block hv hblock
    obtain ⟨hrange, htouch⟩ := mem_visits.1 hv
    refine hagree i block range hblock hrange ?_
    by_contra hnone
    rw [buildBlockRanges_eq] at hexposed hrange
    exact hexposed (exposed_iff.2 ⟨range, List.mem_of_getElem? hrange, htouch, hnone⟩)
  have hloop : ∀ engine, (r.withBytes b₁).extractBlocks K f.streamOffset (f.streamOffset + f.size) engine
      ((buildBlockRanges r.index.block).zipIdx.drop
        (partitionPoint (fun v => v.2 ≤ f.streamOffset) (buildBlockRanges r.index.block)))
      = (r.withBytes b₂).extractBlocks K f.streamOffset (f.streamOffset + f.size) engine
        ((buildBlockRanges r.index.block).zipIdx.drop
          (partitionPoint (fun v => v.2 ≤ f.streamOffset) (buildBlockRanges r.index.block))) := by
    intro engine
    refine (extractBlocks_eq (r := r.withBytes b₁) _ _ engine).trans (Eq.trans ?_
      (extractBlocks_eq (r := r.withBytes b₂) _ _ engine).symm)
    exact writeSlices_congr _ fun start stop i block hv hblock =>
      blockSlice_congr (hvisit (start, stop) i block hv hblock) i start stop
  unfold extractFile
  rw [hf]
  show (liftResult (r.checkEntry f) >>= _) = (liftResult (r.checkEntry f) >>= _)
  cases hcheck : r.checkEntry f with
  | error e => rw [liftResult_error_bind, liftResult_error_bind]
  | ok fileEnd =>
    obtain ⟨_, _, rfl⟩ := checkEntry_ok.1 hcheck
    rw [liftResult_ok_bind, liftResult_ok_bind]
    unfold extractRegular writeRegular
    simp only [hloop]
    rfl

end ArchiveReader

/-! ### A reader that sees it -/

/-- Sealed blocks of zeros, all at the start of the file but the `j`-th, which stands behind them. -/
def gapBlocks (gap : Nat) (sizes : List Nat) (j : Nat) : List BlockEntry := sizes.mapIdx fun i z => {
  offset := if i = j then gap else 0
  sizeStored := z + 16
  sizePlain := z
  isCompressed := false
  nonce := Vector.replicate 12 0
  checksum := Vector.ofFn fun i => (List.replicate z 0).getD i 0 }

def gapReader (gap : Nat) (sizes : List Nat) (j : Nat) : ArchiveReader where
  root := [.rootDir, .normal "out"]
  path := []
  reader := []
  index := ⟨[], gapBlocks gap sizes j, 0⟩
  header := Header.stored gap
  cipher := .aes (Vector.replicate 32 0)
  limits := { Limits.default with maxFileSize := some (2 ^ 64 - 1) }

namespace ArchiveReader

variable {gap j n i : Nat} {sizes : List Nat} {block : BlockEntry}

theorem map_gapBlocks (gap : Nat) (sizes : List Nat) (j : Nat) :
    (gapBlocks gap sizes j).map BlockEntry.sizePlain = sizes := by
  refine List.ext_getElem? fun i => ?_
  unfold gapBlocks
  rw [List.getElem?_map, List.getElem?_mapIdx, Option.map_map]
  exact Option.map_id'

theorem getElem?_gapBlocks (h : (gapBlocks gap sizes j)[i]? = some block) : block.sizePlain ∈ sizes ∧
    block.offset = (if i = j then gap else 0) ∧ block.sizeStored = block.sizePlain + 16 ∧ block.isCompressed = false ∧
    block.checksum = Vector.ofFn fun i => (List.replicate block.sizePlain 0).getD i 0 := by
  unfold gapBlocks at h
  rw [List.getElem?_mapIdx] at h
  obtain ⟨z, hz, rfl⟩ := Option.map_eq_some_iff.1 h
  exact ⟨List.mem_of_getElem? hz, rfl, rfl, rfl, rfl⟩

theorem readAt_zeros {off len : Nat} (h : off + len ≤ n) :
    readAt (List.replicate n 0) off len = .ok (List.replicate len 0) := by
  unfold readAt
  rw [if_pos (.inr (by rwa [List.length_replicate]))]
  unfold slice
  rw [List.drop_replicate, List.take_replicate, Nat.min_eq_left (by omega)]

/-- A block of zeros is opened where the file holds it. -/
theorem readBlock_gap (hgap : gap < 2 ^ 63) (hsizes : ∀ z ∈ sizes, z + 16 ≤ gap)
    (hblock : (gapBlocks gap sizes j)[i]? = some block) (hn : block.offset + block.sizeStored ≤ n)
    (engine : DecompressingEngine) :
    ((gapReader gap sizes j).withBytes (List.replicate n 0)).readBlock (Crates.tabled [] []) block i engine
      = .ok (List.replicate block.sizePlain 0) := by
  obtain ⟨hmem, hoff, hstored, hflag, _⟩ := getElem?_gapBlocks hblock
  have hsize := hsizes _ hmem
  have hseek : block.offset < 2 ^ 63 := by
    rw [hoff]
    split <;> omega
  have hplain : ¬ block.sizePlain > ((gapReader gap sizes j).withBytes (List.replicate n 0)).header.blockSize := by
    show ¬ block.sizePlain > gap
    omega
  have hmax : ¬ block.sizeStored > ((gapReader gap sizes j).withBytes (List.replicate n 0)).header.maxStored := by
    show ¬ block.sizeStored > min (gap + 1024) (2 ^ 64 - 1)
    omega
  unfold readBlock
  rw [failIf_neg hplain, Except.ok_bind, failIf_neg hmax, Except.ok_bind, seekStart, if_pos hseek]
  show (ioFailed _ (readAt (List.replicate n 0) block.offset block.sizeStored) >>= _) = _
  rw [readAt_zeros hn]
  show (unpackBlock _ engine block ((List.replicate block.sizeStored 0).take
    ((List.replicate block.sizeStored (0 : UInt8)).length - 16)) >>= _) = _
  rw [List.length_replicate, List.take_replicate, hstored, unpackBlock, hflag, if_neg (by simp), Except.ok_bind,
    failIf_neg (by simp)]
  simp

/-- The reader with the whole file extracts any entry. -/
theorem gapReader_extracts (hgap : gap < 2 ^ 63) (hsizes : ∀ z ∈ sizes, z + 16 ≤ gap) {f : FileEntry}
    (hf : f.ftype = .file) (hfit : f.streamOffset + f.size < 2 ^ 64) (htime : f.timestamp < 2 ^ 63) :
    let w := World.ofDirs [[], ["out"]]
    let outDir : Path := [.rootDir, .normal "out", .normal "f"]
    let r := (gapReader gap sizes j).withBytes (List.replicate (gap + gap) 0)
    ∃ w', r.extractFile (Crates.tabled [] []) f outDir (buildBlockRanges r.index.block) w = (.ok (), w') := by
  intro w outDir r
  have hread : r.Readable (Crates.tabled [] []) r.engine := by
    intro i block hblock
    obtain ⟨hmem, hoff, hstored, _, hsum⟩ := getElem?_gapBlocks hblock
    have hsize := hsizes _ hmem
    have hn : block.offset + block.sizeStored ≤ gap + gap := by
      rw [hoff]
      split <;> omega
    exact ⟨_, readBlock_gap hgap hsizes hblock hn r.engine, hsum.symm⟩
  have hlimit : r.limits.effMaxFile = 2 ^ 64 - 1 := by simp [r, withBytes, gapReader, Limits.effMaxFile]
  have hcheck : r.checkEntry f = .ok (f.streamOffset + f.size) := checkEntry_ok.2 ⟨by rw [hlimit]; omega, hfit, rfl⟩
  have hroot : w.Rooted [.rootDir, .normal "out"] ["out"] := ⟨fun _ => rfl, by decide +kernel, by decide +kernel⟩
  obtain ⟨_, w₁, hparent, hl, hfs⟩ := Act.exists_ok
    (wp_createDirAll_isDir hroot.reliable hroot.resolves hroot.isDir fun _ => False)
  have hwritable : w.Writable outDir := ⟨["out", "f"], by decide +kernel, .inl (by decide +kernel)⟩
  have hgood : r.Extractable (Crates.tabled [] []) f outDir w₁ :=
    ⟨hl.reliable hroot.reliable, hread, rfl, hgap, htime, hl.writable hfs hwritable⟩
  obtain ⟨w', hrun⟩ := hgood.exists_ok
  refine ⟨w', ?_⟩
  have hparent : createParent outDir w = (.ok (), w₁) := by
    show Act.mapErr (fun _ => Halt.err .writeError) (createDirAll [.rootDir, .normal "out"]) w = _
    unfold Act.mapErr
    rw [hparent]
  unfold extractFile
  rw [hcheck, hf, liftResult_ok_bind, Act.bind_of_ok hparent]
  exact hrun

/-- What a successful extraction has read. -/
theorem visited_of_ok {r : ArchiveReader} {f : FileEntry} (hf : f.ftype = .file) {outDir : Path} {w w' : World}
    (h : r.extractFile K f outDir (buildBlockRanges r.index.block) w = (.ok (), w')) {range : Nat × Nat} {i : Nat}
    (hv : (range, i) ∈ visits f.streamOffset (f.streamOffset + f.size) (buildBlockRanges r.index.block)) :
    ∃ block stored, r.index.block[i]? = some block ∧ readAt r.reader block.offset block.sizeStored = .ok stored := by
  unfold extractFile at h
  obtain ⟨fileEnd, _, hlift, h⟩ := Act.bind_eq_ok.1 h
  obtain ⟨hcheck, rfl⟩ := Act.lift_eq_ok.1 hlift
  obtain ⟨_, _, rfl⟩ := checkEntry_ok.1 (Except.mapError_eq_ok.1 hcheck)
  obtain ⟨_, _, _, h⟩ := Act.bind_eq_ok.1 h
  rw [hf] at h
  dsimp only at h
  unfold extractRegular at h
  obtain ⟨file, _, _, h⟩ := Act.bind_eq_ok.1 h
  obtain ⟨_, _, _, h⟩ := Act.bind_eq_ok.1 h
  obtain ⟨_, h, _⟩ := Act.zoom_eq_ok.1 h
  unfold writeRegular at h
  obtain ⟨_, _, _, h⟩ := Act.bind_eq_ok.1 h
  obtain ⟨engine, _, _, h⟩ := Act.bind_eq_ok.1 h
  obtain ⟨_, _, hloop, _⟩ := Act.bind_eq_ok.1 h
  rw [extractBlocks_eq] at hloop
  obtain ⟨block, piece, hblock, hslice⟩ := writeSlices_ok hloop range.1 range.2 i hv
  obtain ⟨plain, hread, _⟩ := Except.bind_eq_ok.1 hslice
  obtain ⟨_, _, h⟩ := Except.bind_eq_ok.1 hread
  obtain ⟨_, _, h⟩ := Except.bind_eq_ok.1 h
  obtain ⟨_, _, h⟩ := Except.bind_eq_ok.1 h
  obtain ⟨stored, hstored, _⟩ := Except.bind_eq_ok.1 h
  exact ⟨block, stored, hblock, ioFailed_ok.1 hstored⟩

end ArchiveReader

/-- The entry with the window `[off, off + size)`. -/
def windowEntry (off size : Nat) : FileEntry := { plainFile "f" off size with timestamp := 0 }

/-- **Damage is seen** at a visited block that holds no byte of the entry. -/
theorem exposed_differs {sizes : List Nat} (hsizes : ∀ z ∈ sizes, z < 2 ^ 32) {off size : Nat}
    (hfit : off + size < 2 ^ 64) (hexposed : Exposed off size (ranges 0 sizes)) :
    ∃ (r : ArchiveReader) (b₁ b₂ : Bytes) (outDir : Path), r.index.block.map BlockEntry.sizePlain = sizes ∧
      r.AgreeOn (windowEntry off size) b₁ b₂ ∧
      (r.withBytes b₁).extractFile (Crates.tabled [] []) (windowEntry off size) outDir
          (buildBlockRanges r.index.block)
        ≠ (r.withBytes b₂).extractFile (Crates.tabled [] []) (windowEntry off size) outDir
          (buildBlockRanges r.index.block) := by
  obtain ⟨range, hmem, htouch, hnone⟩ := exposed_iff.1 hexposed
  obtain ⟨j, hj⟩ := List.mem_iff_getElem?.1 hmem
  obtain ⟨gap, hgap, hroom⟩ : ∃ gap, gap < 2 ^ 63 ∧ ∀ z ∈ sizes, z + 16 ≤ gap :=
    ⟨2 ^ 32 + 16, by decide, fun z hz => by have := hsizes z hz; omega⟩
  have hranges : buildBlockRanges (gapBlocks gap sizes j) = ranges 0 sizes := by
    rw [buildBlockRanges_eq, ArchiveReader.map_gapBlocks]
  refine ⟨gapReader gap sizes j, List.replicate (gap + gap) 0, List.replicate gap 0,
    [.rootDir, .normal "out", .normal "f"], ArchiveReader.map_gapBlocks gap sizes j, ?_, fun heq => ?_⟩
  · -- only the block that holds no byte is missing
    intro i block range' hblock hrange' hholds
    obtain ⟨hin, hoff, hstored, _⟩ := ArchiveReader.getElem?_gapBlocks hblock
    have hsize := hroom _ hin
    have hne : i ≠ j := by
      rintro rfl
      have hrange' : (buildBlockRanges (gapBlocks gap sizes i))[i]? = some range' := hrange'
      rw [hranges, hj] at hrange'
      cases hrange'
      exact hnone hholds
    rw [hoff, if_neg hne, ArchiveReader.readAt_zeros (by omega), ArchiveReader.readAt_zeros (by omega)]
  · obtain ⟨w', hrun⟩ := ArchiveReader.gapReader_extracts (j := j) hgap hroom (f := windowEntry off size) rfl hfit
      (Nat.two_pow_pos 63)
    have hrun' := (congrFun heq _).symm.trans hrun
    have hv : (range, j) ∈ visits off (off + size) (buildBlockRanges (gapBlocks gap sizes j)) :=
      mem_visits.2 ⟨by rw [hranges]; exact hj, htouch⟩
    obtain ⟨block, stored, hblock, hread⟩ := ArchiveReader.visited_of_ok (r := (gapReader gap sizes j).withBytes
      (List.replicate gap 0)) rfl hrun' hv
    obtain ⟨_, hoff, hstored, _⟩ := ArchiveReader.getElem?_gapBlocks hblock
    have hread : readAt (List.replicate gap 0) block.offset block.sizeStored = .ok stored := hread
    unfold readAt at hread
    rw [if_neg (by rw [hoff, if_pos rfl, hstored, List.length_replicate]; omega)] at hread
    cases hread

/-- **When damage to a block is confined to the entries that use it.** For all readers with blocks of these lengths, and
all entries with this window: their extraction depends on the blocks that hold a byte of the entry alone exactly when no
empty block lies inside the window, and no block around it where it is empty. -/
theorem damage_confined_iff {sizes : List Nat} (hsizes : ∀ z ∈ sizes, z < 2 ^ 32) (off size : Nat) :
    (∀ (K : Crates) (r : ArchiveReader) (f : FileEntry) (b₁ b₂ : Bytes) (outDir : Path),
      r.index.block.map BlockEntry.sizePlain = sizes → f.ftype = .file → f.streamOffset = off → f.size = size →
      r.AgreeOn f b₁ b₂ →
      (r.withBytes b₁).extractFile K f outDir (buildBlockRanges r.index.block)
        = (r.withBytes b₂).extractFile K f outDir (buildBlockRanges r.index.block)) ↔
    (off + size < 2 ^ 64 → ¬ Exposed off size (ranges 0 sizes)) := by
  constructor
  · intro hsame hfit hexposed
    obtain ⟨r, b₁, b₂, outDir, hblocks, hagree, hdiffer⟩ := exposed_differs hsizes hfit hexposed
    exact hdiffer (hsame _ r _ b₁ b₂ outDir hblocks rfl rfl rfl hagree)
  · rintro hcond K r f b₁ b₂ outDir rfl hf rfl rfl hagree
    by_cases hfit : f.streamOffset + f.size < 2 ^ 64
    · refine ArchiveReader.extractFile_congr hf hagree ?_ outDir
      rw [buildBlockRanges_eq]
      exact hcond hfit
    · -- the range of the entry is refused before anything is read
      have hrefuse : ∃ e, r.checkEntry f = .error e := by
        cases hcheck : r.checkEntry f with
        | error e => exact ⟨e, rfl⟩
        | ok fileEnd => exact absurd (ArchiveReader.checkEntry_ok.1 hcheck).2.1 hfit
      obtain ⟨e, he⟩ := hrefuse
      unfold ArchiveReader.extractFile
      show (liftResult (r.checkEntry f) >>= _) = (liftResult (r.checkEntry f) >>= _)
      rw [he, liftResult_error_bind, liftResult_error_bind]

/-- Three files in one block of two bytes: the second is empty. -/
def threeFiles : Index := ⟨[plainFile "a" 0 1, plainFile "b" 1 0, plainFile "c" 1 1], [plainBlock 4 [1, 2]], 2⟩

/-- An archive with these data, between the length of the header and the footer. -/
def storedArchive (indexOffset : Nat) (data : Bytes) : Bytes :=
  [0, 0, 0, 0] ++ data ++ Footer.serialize ⟨indexOffset, 0, 0, false, Vector.replicate 12 0⟩

/-- **A damaged byte of `c` stops the extraction of the empty file `b`.** -/
theorem empty_file_fails :
    let K := Crates.tabled [Header.stored 2] [threeFiles]
    let f := plainFile "b" 1 0
    let r : ArchiveReader := ⟨[.rootDir, .normal "out"], [], [], threeFiles, Header.stored 2, .none, Limits.default⟩
    let b₁ := storedArchive 6 [1, 2]
    let b₂ := storedArchive 6 [1, 3]
    let outDir : Path := [.rootDir, .normal "out", .normal "b"]
    let w := World.ofDirs [[], ["out"]]
    f ∈ threeFiles.files ∧
    ArchiveReader.new K b₁ [] r.root Limits.default ⟨none, none⟩ false = .ok (r.withBytes b₁) ∧
    ArchiveReader.new K b₂ [] r.root Limits.default ⟨none, none⟩ false = .ok (r.withBytes b₂) ∧
    r.AgreeOn f b₁ b₂ ∧
    ((r.withBytes b₁).extractFile K f outDir (buildBlockRanges r.index.block) w).1 = .ok () ∧
    ((r.withBytes b₂).extractFile K f outDir (buildBlockRanges r.index.block) w).1
      = .error (.err .decompressionError) := by
  intro K f r b₁ b₂ outDir w
  refine ⟨by decide, by decide +kernel, by decide +kernel, ?_, by decide +kernel, by decide +kernel⟩
  rintro i block range _ _ ⟨x, _, _, hx, hx'⟩
  exact absurd hx' (Nat.not_lt.2 hx)

/-- Damage to the second block of `a` is not seen by an entry in the first. -/
theorem damage_confined_first :
    let K := Crates.tabled [] []
    let f := plainFile "f" 0 2
    let r : ArchiveReader := ⟨[.rootDir, .normal "out"], [], [], indexOfA, Header.stored 2, .none, Limits.default⟩
    ∀ outDir, (r.withBytes [0, 0, 0, 0, 1, 2, 3]).extractFile K f outDir (buildBlockRanges r.index.block)
      = (r.withBytes [0, 0, 0, 0, 1, 2, 9]).extractFile K f outDir (buildBlockRanges r.index.block) := by
  intro K f r outDir
  refine (damage_confined_iff (show ∀ z ∈ [2, 1], z < 2 ^ 32 by decide) 0 2).2 (fun _ => by decide) K r f _ _ outDir
    rfl rfl rfl rfl ?_
  rintro i block range hblock hrange ⟨x, hx, _, _, hx'⟩
  match i with
  | 0 =>
    cases hblock
    decide
  | 1 =>
    cases hrange
    exact absurd hx' (Nat.not_lt.2 hx)
  | i + 2 => cases hblock

/-- An index with an empty block between two others. -/
def gappyIndex : Index := ⟨[plainFile "f" 1 2], [plainBlock 4 [1, 2], plainBlock 6 [], plainBlock 6 [3]], 3⟩

/-- Two bytes from two blocks, with an empty one in between. -/
theorem fast_path_eq_slice_gappy :
    let K := Crates.tabled [Header.stored 2] [gappyIndex]
    let f := plainFile "f" 1 2
    let r : ArchiveReader :=
      ⟨[.rootDir, .normal "out"], [], storedArchive 7 [1, 2, 3], gappyIndex, Header.stored 2, .none, Limits.default⟩
    let outDir : Path := [.rootDir, .normal "out", .normal "f"]
    visits 1 3 (buildBlockRanges gappyIndex.block) = [((0, 2), 0), ((2, 2), 1), ((2, 3), 2)] ∧
    ∃ w' l m t, r.extractFile K f outDir (buildBlockRanges r.index.block) (World.ofDirs [[], ["out"]]) = (.ok (), w') ∧
      w'.resolve true outDir = .ok l ∧ w'.fs l = some (.file [2, 3] m t) := by
  intro K f r outDir
  have hread : r.Readable K r.engine := by
    intro i block hblock
    match i with
    | 0 =>
      cases hblock
      exact ⟨[1, 2], by decide +kernel, by decide +kernel⟩
    | 1 =>
      cases hblock
      exact ⟨[], by decide +kernel, by decide +kernel⟩
    | 2 =>
      cases hblock
      exact ⟨[3], by decide +kernel, by decide +kernel⟩
    | i + 3 => cases hblock
  have hin : f.streamOffset + f.size ≤ (r.index.block.map BlockEntry.sizePlain).sum := by decide +kernel
  obtain ⟨_, _, _, _, _, hwritten⟩ := fast_path_eq_slice hread (show f.ftype = .file from rfl) hin
  obtain ⟨w', hrun⟩ : ∃ w', r.extractFile K f outDir (buildBlockRanges r.index.block) (World.ofDirs [[], ["out"]])
      = (.ok (), w') := ⟨_, Act.run_of_ok (by decide +kernel)⟩
  obtain ⟨l, hres, hfile⟩ := hwritten outDir _ w' hrun
  have hnaive : slice f.streamOffset f.size (r.decodedBlocks K r.engine).flatten = [2, 3] := by decide +kernel
  rw [hnaive] at hfile
  exact ⟨by decide +kernel, w', l, _, _, hrun, hres, hfile⟩

end Cryo
