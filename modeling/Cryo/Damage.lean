import Cryo.History

/-!
# Damage to the data

What a block opens to is only used when it has the recorded checksum, so damage to the data region makes an extraction
fail at most, if no block opens to something else of the same checksum (`CollisionFree`). Two readers that differ in
their bytes only are compared: what the damaged one reads and accepts is what the original one reads
(`Finished.readBlock_withBytes`).

* `damage_never_unnoticed`: a verified archive is extracted like the original one, a successful extraction is one of
  the original archive, and whatever is written is a prefix of what the original archive gives.
-/

namespace Cryo

open Posix Bytes Chunk

variable {K : Crates}

/-! ## Readers of different bytes -/

namespace ArchiveReader

variable {r : ArchiveReader} {bytes : Bytes} {engine : DecompressingEngine}

/-- The reader with another file behind it. -/
def withBytes (r : ArchiveReader) (bytes : Bytes) : ArchiveReader := { r with reader := bytes }

theorem withBytes_index : (r.withBytes bytes).index = r.index := rfl

variable (r bytes) in
/-- A slice comes from the block alone. -/
theorem blockSlice_of_readBlock {block : BlockEntry} {i a b start stop : Nat} {piece : Bytes}
    (h : ∀ plain, r.readBlock K block i engine = .ok plain → K.blake3 plain = block.checksum →
      (r.withBytes bytes).readBlock K block i engine = .ok plain)
    (hs : r.blockSlice K a b engine block i start stop = .ok piece) :
    (r.withBytes bytes).blockSlice K a b engine block i start stop = .ok piece := by
  unfold blockSlice at hs ⊢
  obtain ⟨plain, hread, hs⟩ := Except.bind_eq_ok.1 hs
  obtain ⟨u, hsum, hs⟩ := Except.bind_eq_ok.1 hs
  rw [h plain hread (not_not.1 (failIf_ok.1 hsum)), Except.ok_bind, hsum, Except.ok_bind]
  exact hs

theorem extractBlocks_below (a b : Nat)
    (h : ∀ i block, r.index.block[i]? = some block → ∀ start stop piece,
      r.blockSlice K a b engine block i start stop = .ok piece →
      (r.withBytes bytes).blockSlice K a b engine block i start stop = .ok piece) :
    ∀ rest, Act.Below (r.extractBlocks K a b engine rest) ((r.withBytes bytes).extractBlocks K a b engine rest)
  | [] => .refl _
  | ((start, stop), i) :: rest => by
    rw [extractBlocks, extractBlocks]
    rw [withBytes_index]
    cases hb : r.index.block[i]? with
    | none => exact .refl _
    | some block =>
      dsimp only
      split
      · exact .refl _
      · refine .bind (.lift fun piece hp => ?_) fun piece => .bind (.refl _) fun _ =>
          extractBlocks_below a b h rest
        exact Except.mapError_eq_ok.2 (h i block hb start stop piece (Except.mapError_eq_ok.1 hp))

theorem extractBlocks_alike (a b : Nat)
    (h : ∀ i block, r.index.block[i]? = some block → ∀ start stop piece,
      r.blockSlice K a b engine block i start stop = .ok piece ↔
      (r.withBytes bytes).blockSlice K a b engine block i start stop = .ok piece) :
    ∀ rest, Act.Alike (r.extractBlocks K a b engine rest) ((r.withBytes bytes).extractBlocks K a b engine rest)
  | [] => .refl _
  | ((start, stop), i) :: rest => by
    rw [extractBlocks, extractBlocks]
    rw [withBytes_index]
    cases hb : r.index.block[i]? with
    | none => exact .refl _
    | some block =>
      dsimp only
      split
      · exact .refl _
      · refine .bind (.lift fun piece => ?_) fun piece => .bind (.refl _) fun _ =>
          extractBlocks_alike a b h rest
        exact Except.mapError_eq_ok.trans ((h i block hb start stop piece).trans Except.mapError_eq_ok.symm)

variable (r bytes) in
/-- Agreement on slices is agreement on extracting. -/
theorem extractFile_below {f : FileEntry} (outDir : Path) (blocks : List (Nat × Nat))
    (h : ∀ i block, r.index.block[i]? = some block → ∀ a b start stop piece,
      r.blockSlice K a b r.engine block i start stop = .ok piece →
      (r.withBytes bytes).blockSlice K a b r.engine block i start stop = .ok piece) :
    Act.Below (r.extractFile K f outDir blocks) ((r.withBytes bytes).extractFile K f outDir blocks) := by
  unfold extractFile
  refine .bind (.refl _) fun fileEnd => .bind (.refl _) fun _ => ?_
  cases f.ftype with
  | dir => exact .refl _
  | symlink => exact .refl _
  | file =>
    refine .bind (.refl _) fun file => .bind (.refl _) fun _ => .zoom (.bind (.refl _) fun time => ?_) _ _
    show Act.Below (liftResult (DecompressingEngine.new K r.header.compression) >>= _)
      (liftResult (DecompressingEngine.new K r.header.compression) >>= _)
    cases he : DecompressingEngine.new K r.header.compression with
    | error e => exact .refl _
    | ok engine =>
      obtain rfl := new_engine he
      rw [liftResult_ok_bind, liftResult_ok_bind]
      exact .bind (extractBlocks_below _ _ (fun i block hb => h i block hb _ _) _) fun _ => .refl _

theorem extractFile_alike {f : FileEntry} (outDir : Path) (blocks : List (Nat × Nat))
    (h : ∀ i block, r.index.block[i]? = some block → ∀ a b start stop piece,
      r.blockSlice K a b r.engine block i start stop = .ok piece ↔
      (r.withBytes bytes).blockSlice K a b r.engine block i start stop = .ok piece) :
    Act.Alike (r.extractFile K f outDir blocks) ((r.withBytes bytes).extractFile K f outDir blocks) := by
  unfold extractFile
  refine .bind (.refl _) fun fileEnd => .bind (.refl _) fun _ => ?_
  cases f.ftype with
  | dir => exact .refl _
  | symlink => exact .refl _
  | file =>
    refine .bind (.refl _) fun file => .bind (.refl _) fun _ => .zoom (.bind (.refl _) fun time => ?_) _ _
    show Act.Alike (liftResult (DecompressingEngine.new K r.header.compression) >>= _)
      (liftResult (DecompressingEngine.new K r.header.compression) >>= _)
    cases he : DecompressingEngine.new K r.header.compression with
    | error e => exact .refl _
    | ok engine =>
      obtain rfl := new_engine he
      rw [liftResult_ok_bind, liftResult_ok_bind]
      exact .bind (extractBlocks_alike _ _ (fun i block hb => h i block hb _ _) _) fun _ => .refl _

/-- **What is written of a regular file** at any moment is a prefix of its window of the decoded blocks. -/
theorem extractFile_leads {ps : List Bytes} (hdec : r.Decoded K r.engine ps) {f : FileEntry} (hf : f.ftype = .file)
    (outDir : Path) (w : World) :
    w.Leads (fun ch => ∀ c m t, ch.node = some (.file c m t) → c <+: slice f.streamOffset f.size ps.flatten)
      (r.extractFile K f outDir (buildBlockRanges r.index.block) w).2 := by
  refine Act.snd_of_wp ?_
  unfold extractFile
  rw [Act.wp_bind]
  refine (Act.wp_lift _).2 ⟨fun fileEnd hcheck => ?_, fun e _ => World.Leads.refl _ w⟩
  obtain ⟨_, _, rfl⟩ := checkEntry_ok.1 (Except.mapError_eq_ok.1 hcheck)
  rw [Act.wp_bind]
  refine Act.wp_mono (createParent_leads (fun l m c m' t h => by cases h) outDir w) (fun _ w₁ h₁ => ?_) fun _ _ h => h
  rw [hf]
  refine Act.wp_mono (wp_extractRegular hdec f outDir w₁) (fun _ w₂ h₂ => h₁.trans (h₂.1.mono ?_))
    fun _ w₂ h₂ => h₁.trans (h₂.1.mono ?_)
  all_goals
    rintro ch ⟨_, _, _, _, c, m, t, hc, hpre⟩ c' m' t' hc'
    rw [hc] at hc'
    cases hc'
    exact hpre

end ArchiveReader

/-! ## Damaged archives -/

variable (K) in
/-- No block of the archive opens to other bytes of its checksum when `r` reads it. Nothing is asked of byte strings
that no block opens to. -/
def CollisionFree (arch : ArchiveWriter) (r : ArchiveReader) : Prop :=
  ∀ (im : Image K) (raws : List Bytes), Finished arch im raws → ∀ (i : Nat) (raw : Bytes) (block : BlockEntry)
    (plain : Bytes), raws[i]? = some raw → arch.index.block[i]? = some block →
    r.openBlock K block i r.engine = .ok plain → K.blake3 plain = K.blake3 raw → plain = raw

namespace Finished

variable {arch : ArchiveWriter} {im : Image K} {raws : List Bytes}

/-- What a block opens to with its checksum is the block. -/
theorem eq_raw (hf : Finished arch im raws) {r : ArchiveReader} (hcoll : CollisionFree K arch r) {i : Nat}
    {block : BlockEntry} {plain : Bytes} (hb : arch.index.block[i]? = some block)
    (hopen : r.openBlock K block i r.engine = .ok plain) (hsum : K.blake3 plain = block.checksum) :
    raws[i]? = some plain ∧ block.sizePlain = u32 plain.length := by
  have hi : i < raws.length := by
    rw [← hf.region.length_block]
    exact (List.getElem?_eq_some_iff.1 hb).1
  have hraw := List.getElem?_eq_getElem hi
  obtain ⟨hsize, hchecksum⟩ := hf.region.entry_records hraw hb
  obtain rfl := hcoll im raws hf i raws[i] block plain hraw hb hopen (hsum.trans hchecksum)
  exact ⟨hraw, hsize⟩

/-- **What a damaged archive gives is what the original gives.** -/
theorem readBlock_withBytes (hf : Finished arch im raws) (hoff : arch.filePosition < 2 ^ 63) (p out : Path)
    (limits : Limits) {bytes : Bytes} (hcoll : CollisionFree K arch ((arch.reader p out limits).withBytes bytes))
    {i : Nat} {block : BlockEntry} {plain : Bytes} (hb : arch.index.block[i]? = some block)
    (hread : ((arch.reader p out limits).withBytes bytes).readBlock K block i (arch.reader p out limits).engine
      = .ok plain)
    (hsum : K.blake3 plain = block.checksum) :
    (arch.reader p out limits).readBlock K block i (arch.reader p out limits).engine = .ok plain := by
  obtain ⟨hopen, hlen⟩ := ArchiveReader.readBlock_ok.1 hread
  obtain ⟨hraw, hsize⟩ := hf.eq_raw hcoll hb hopen hsum
  have hlt : plain.length < 2 ^ 32 := u32_eq_iff.1 (hsize.symm.trans hlen.symm)
  obtain ⟨block', hb', hread', _⟩ := hf.readBlock hoff p out limits hraw hlt
  cases hb'.symm.trans hb
  exact hread'

/-- **A damaged archive is still loaded** as the original was written. -/
theorem new_withBytes (hK : K.Lawful) (hf : Finished arch im raws) {limits : Limits} (hs : Sizes K limits arch)
    {headerBytes : Bytes} (hheader : K.headerToVec arch.header = some headerBytes) {data : Bytes}
    (hdata : 4 + headerBytes.length + data.length = arch.filePosition) {prompts : Prompts} {confirm : Bool}
    (hc : Cipher.new K prompts arch.header confirm = .ok arch.cipher) (p out : Path) :
    ArchiveReader.new K (overwrite (4 + headerBytes.length) data arch.writer.bytes) p out limits prompts confirm
      = .ok ((arch.reader p out limits).withBytes (overwrite (4 + headerBytes.length) data arch.writer.bytes)) := by
  have hsame : im.headerBytes = headerBytes :=
    Option.some.inj (im.headerVec.symm.trans ((congrArg K.headerToVec hf.header).symm.trans hheader))
  have hlen : data.length = im.data.length := by
    have := hf.filePosition
    unfold Image.start at this
    rw [hsame] at this
    omega
  have hbytes : overwrite (4 + headerBytes.length) data arch.writer.bytes = (im.withData data hlen).bytes := by
    have hstart : 4 + headerBytes.length = im.lead.length := by rw [im.length_lead, Image.start, hsame]
    show overwrite _ data arch.writer.bytes = im.lead ++ data ++ im.sealedIndex ++ im.footer.serialize
    rw [hf.bytes, Image.bytes, hstart, List.append_assoc (im.lead ++ im.data), List.append_assoc (im.lead ++ data)]
    exact overwrite_mid hlen
  rw [hf.header, hf.cipher] at hc
  unfold ArchiveReader.new
  rw [hbytes, Image.retrieve_image hK ((hf.within hs).withData hlen) hc]
  unfold ArchiveWriter.reader ArchiveReader.withBytes
  rw [hf.index, hf.header, hf.cipher]
  rfl

end Finished

/-- **Damage to the data region is never unnoticed.** The bytes between the header and the index are replaced by any
others. Of the checksums it is asked that they tell the blocks from what these open to, before and after. -/
theorem damage_never_unnoticed (hK : K.Lawful) {P : Os → Nat → Prop} {arch : ArchiveWriter} (hmade : Made K P arch)
    (hrec : arch.header.blockSize + 16 < 2 ^ 32 ∨ arch.Recorded) {limits : Limits} (hs : Sizes K limits arch)
    {headerBytes : Bytes} (hheader : K.headerToVec arch.header = some headerBytes) {data : Bytes}
    (hdata : 4 + headerBytes.length + data.length = arch.filePosition) (p out : Path) :
    let bytes := overwrite (4 + headerBytes.length) data arch.writer.bytes
    let r := arch.reader p out limits
    let damaged := r.withBytes bytes
    let ranges := buildBlockRanges arch.index.block
    (∀ prompts confirm, Cipher.new K prompts arch.header confirm = .ok arch.cipher →
      ArchiveReader.new K bytes p out limits prompts confirm = .ok damaged) ∧
    (CollisionFree K arch r → CollisionFree K arch damaged → ∀ f ∈ arch.index.files, f.ftype = .file →
      (damaged.verify K p = .ok () → ∀ outDir,
        Act.Alike (r.extractFile K f outDir ranges) (damaged.extractFile K f outDir ranges)) ∧
      (∀ outDir, Act.Below (damaged.extractFile K f outDir ranges) (r.extractFile K f outDir ranges)) ∧
      ∃ original,
        (∀ outDir w w', r.extractFile K f outDir ranges w = (.ok (), w') → ∃ l m t,
          w'.resolve true outDir = .ok l ∧ w'.fs l = some (.file original m t)) ∧
        ∀ outDir (w : World), w.Leads (fun ch => ∀ c m t, ch.node = some (.file c m t) → c <+: original)
          (damaged.extractFile K f outDir ranges w).2) := by
  intro bytes r damaged ranges
  obtain ⟨im, raws, hf, hengine⟩ := hmade.finished hK hrec
  refine ⟨fun prompts confirm hc => hf.new_withBytes hK hs hheader hdata hc p out, fun hcollr hcoll => ?_⟩
  have hread : ∀ {i block plain}, arch.index.block[i]? = some block →
      damaged.readBlock K block i r.engine = .ok plain → K.blake3 plain = block.checksum →
      r.readBlock K block i r.engine = .ok plain := fun hb => hf.readBlock_withBytes hs.offset p out limits hcoll hb
  have hslice : ∀ i block, arch.index.block[i]? = some block → ∀ a b start stop piece,
      damaged.blockSlice K a b r.engine block i start stop = .ok piece →
      r.blockSlice K a b r.engine block i start stop = .ok piece := fun i block hb a b start stop piece =>
    ArchiveReader.blockSlice_of_readBlock damaged arch.writer.bytes fun plain hp hsum => hread hb hp hsum
  refine fun f _ hft => ⟨fun hverify outDir => ?_, fun outDir => ?_, ?_⟩
  · refine ArchiveReader.extractFile_alike outDir ranges fun i block hb a b start stop piece =>
      ⟨ArchiveReader.blockSlice_of_readBlock r bytes fun plain hp hsum => ?_, hslice i block hb a b start stop piece⟩
    -- what verified opens to the raw block, and the original reads nothing else
    obtain ⟨hopen, hlen⟩ := ArchiveReader.readBlock_ok.1 hp
    obtain ⟨plain', hopen', hsum'⟩ := (ArchiveReader.verify_ok (r := damaged) hengine).1 hverify i block hb
    obtain rfl : plain = plain' := Option.some.inj
      ((hf.eq_raw hcollr hb hopen hsum).1.symm.trans (hf.eq_raw hcoll hb hopen' hsum').1)
    exact ArchiveReader.readBlock_ok.2 ⟨hopen', hlen⟩
  · exact ArchiveReader.extractFile_below damaged arch.writer.bytes outDir ranges hslice
  · have hdec := ArchiveReader.decoded_decodedBlocks K r r.engine
    have hdec' : damaged.Decoded K damaged.engine (r.decodedBlocks K r.engine) :=
      ⟨hdec.lengths, fun hb hp hsum => hdec.reads hb (hread hb hp hsum) hsum⟩
    refine ⟨slice f.streamOffset f.size (r.decodedBlocks K r.engine).flatten, fun outDir w w' hrun => ?_,
      fun outDir w => ?_⟩
    · obtain ⟨l, hres, hfile⟩ := ArchiveReader.extractFile_ok hdec hft hrun
      exact ⟨l, _, _, hres, hfile⟩
    · exact ArchiveReader.extractFile_leads hdec' hft outDir w

/-- The index of one block `[7]`, with a checksum that no other bytes have. -/
def indexOfSeven : Index where
  files := [plainFile "a" 0 1]
  block := [{ plainBlock 4 [7] with checksum := Vector.replicate 32 1 }]
  totalStreamSize := 1

/-- Crates whose hash tells `[7]` from everything else. -/
def sevenCrates : Crates :=
  { Crates.tabled [Header.stored 2] [indexOfSeven] with
    blake3 := fun d => if d = [7] then Vector.replicate 32 1 else Vector.replicate 32 0 }

/-- The byte 7 is stored and becomes a 9. -/
theorem damage_never_unnoticed_seven :
    ∃ arch : ArchiveWriter, Made sevenCrates (fun _ _ => True) arch ∧ arch.index = indexOfSeven ∧
      let r := arch.reader [] [] Limits.default
      let damaged := r.withBytes (overwrite 4 [9] arch.writer.bytes)
      ∀ outDir, Act.Below
        (damaged.extractFile sevenCrates (plainFile "a" 0 1) outDir (buildBlockRanges indexOfSeven.block))
        (r.extractFile sevenCrates (plainFile "a" 0 1) outDir (buildBlockRanges indexOfSeven.block)) := by
  obtain ⟨arch, h, hshown⟩ := Except.exists_of_toOption_map (f := ArchiveWriter.shown)
    (x := initializeCompression sevenCrates (Setup.plain [[.normal "src", .normal "a"]])
      (Env.plain (Os.ofFiles [([.normal "src", .normal "a"], 1, [7])])) (CompressArgs.plain 2))
    (b := ([0, 0, 0, 0] ++ [7] ++ List.replicate 0 0 ++ Footer.serialize ⟨5, 0, 0, false, Vector.replicate 12 0⟩,
      indexOfSeven, 5, Header.stored 2, .none)) (by decide +kernel)
  have hs : Sizes sevenCrates Limits.default arch :=
    sizes_of_shown hshown (by decide +kernel) (by decide +kernel) (by decide) (by decide)
  have hmade : Made sevenCrates (fun _ _ => True) arch := .compress trivial h
  unfold ArchiveWriter.shown at hshown
  simp only [Prod.mk.injEq] at hshown
  obtain ⟨_, hidx, hpos, hheader, _⟩ := hshown
  have hcoll : ∀ r : ArchiveReader, CollisionFree sevenCrates arch r := by
    have hseven : ∀ x, sevenCrates.blake3 x = Vector.replicate 32 1 → x = [7] := by
      intro x hx
      by_contra hne
      have : sevenCrates.blake3 x = Vector.replicate 32 0 := if_neg hne
      rw [this] at hx
      exact absurd hx (by decide)
    intro r im raws hf i raw block plain hraw hb _ hsum
    have hchecksum := (hf.region.entry_records hraw hb).2
    rw [hidx] at hb
    obtain rfl := List.mem_singleton.1 (List.mem_of_getElem? hb)
    rw [hseven plain (hsum.trans hchecksum.symm), hseven raw hchecksum.symm]
  have hvec : sevenCrates.headerToVec arch.header = some [] := by rw [hheader]; decide +kernel
  have hdata : 4 + ([] : Bytes).length + ([9] : Bytes).length = arch.filePosition := by rw [hpos]; rfl
  have hall := damage_never_unnoticed ((Crates.tabled_lawful _ _).withHash _) hmade (.inl (by rw [hheader]; decide)) hs
    hvec hdata [] []
  have hfile := hall.2 (hcoll _) (hcoll _) (plainFile "a" 0 1) (by rw [hidx]; decide) rfl
  refine ⟨arch, hmade, hidx, ?_⟩
  rw [← hidx]
  exact hfile.2.1

end Cryo
