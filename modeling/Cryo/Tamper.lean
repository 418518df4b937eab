import Cryo.Binding
import Cryo.Damage
import Cryo.Session
import Mathlib.Algebra.BigOperators.Group.List.Basic

/-!
# Tampering with an encrypted archive

Someone without the password replaces the whole file of an encrypted archive, knowing every version the file has had.
What they can make is not a forgery (`Unforged`): what the reader opens of their file with the key was sealed by the
program, under the same nonce and associated data. The associated data hold the number of the block and the id of the archive,
and versions only grow (`Versions.grown`), so a block that opens in its place has the content of its place in every
version.

* `tampering_noticed`: a file that opens is one of the versions with other bytes in its data region, and what is
  extracted from it is what that version gives. Nothing can be exchanged, only an older version be brought back.
* `wrong_password`: with another password nothing is read, and an append changes nothing.
-/

namespace Cryo

open Posix Bytes Chunk

variable {K : Crates}

/-! ## Versions -/

variable (K) in
/-- The versions of an archive, the newest first: a compression and the appends to it. -/
inductive Versions : List ArchiveWriter → Prop
  | compress {setup : Setup} {env : Env} {args : CompressArgs} {arch : ArchiveWriter} :
    1 ≤ args.bs → args.bs ≤ MAX_BLOCK_SIZE → env.os.Still → setup.Scans →
    initializeCompression K setup env args = .ok arch → Versions [arch]
  | append {arch arch' : ArchiveWriter} {older : List ArchiveWriter} {setup : AppendSetup} {env : Env}
    {args : AppendArgs} :
    Versions (arch :: older) → Unnarrowed K arch →
    Cipher.new K setup.prompts arch.header args.confirm = .ok arch.cipher → env.os.Still →
    appendFile K setup env arch.writer.bytes args = .ok arch' → Versions (arch' :: arch :: older)

/-- Every version is a history. -/
theorem Versions.chain {versions : List ArchiveWriter} (h : Versions K versions) : ∀ v ∈ versions, Chain K v := by
  induction h with
  | compress hone hmax hstill hscans hrun =>
    intro v hv
    obtain rfl := List.mem_singleton.1 hv
    exact .compress hone hmax hstill hscans hrun
  | append _ hfits hkey hstill hrun ih =>
    intro v hv
    rcases List.mem_cons.1 hv with rfl | hv
    · exact .append (ih _ List.mem_cons_self) hfits hkey hstill hrun
    · exact ih v hv

/-- **Versions only grow.** -/
theorem Versions.grown (hK : K.Lawful) {versions : List ArchiveWriter} (h : Versions K versions) :
    versions.Pairwise fun new old => Grown K old new := by
  induction h with
  | compress => exact List.pairwise_singleton _ _
  | @append arch arch' older _ _ _ h hfits hkey _ hrun ih =>
    have hgrown : Grown K arch arch' := (h.chain _ List.mem_cons_self).grown hK hfits hkey hrun
    refine List.pairwise_cons.2 ⟨fun v hv => ?_, ih⟩
    rcases List.mem_cons.1 hv with rfl | hv
    · exact hgrown
    · exact ((List.pairwise_cons.1 ih).1 v hv).trans hgrown

/-- Of two versions one has grown from the other. -/
theorem Versions.linear (hK : K.Lawful) {versions : List ArchiveWriter} (h : Versions K versions) {v w : ArchiveWriter}
    (hv : v ∈ versions) (hw : w ∈ versions) : Grown K v w ∨ Grown K w v := by
  obtain ⟨i, hi, rfl⟩ := List.mem_iff_getElem.1 hv
  obtain ⟨j, hj, rfl⟩ := List.mem_iff_getElem.1 hw
  have hgrown := List.pairwise_iff_getElem.1 (h.grown hK)
  rcases Nat.lt_trichotomy i j with hij | rfl | hij
  · exact .inr (hgrown i j hi hj hij)
  · exact .inl (.refl _)
  · exact .inl (hgrown j i hj hi hij)

/-- What was appended to was not narrowed. -/
theorem Versions.unnarrowed {versions : List ArchiveWriter} (h : Versions K versions) :
    ∀ v ∈ versions.tail, Unnarrowed K v := by
  induction h with
  | compress =>
    intro v hv
    cases hv
  | append _ hfits _ _ _ ih =>
    intro v hv
    rcases List.mem_cons.1 hv with rfl | hv
    · exact hfits
    · exact ih v hv

/-! ## What is sealed in an archive -/

variable (K) in
/-- The message `m` lies sealed in the file, under this nonce and these associated data: as its index or as one of its
blocks. -/
inductive ArchiveWriter.HoldsSealed (arch : ArchiveWriter) : Nonce × Bytes → Bytes → Prop
  | index {footer : Footer} {m : Bytes} : arch.footer = .ok footer →
    decryptBlock K (.index footer.indexNonce) arch.cipher arch.header
      (slice footer.indexOffset footer.indexSizeStored arch.writer.bytes) 0 = .ok m →
    HoldsSealed arch ((EncryptedData.index footer.indexNonce).seal 0 arch.header.archiveId) m
  | block {i : Nat} {e : BlockEntry} {m : Bytes} : arch.index.block[i]? = some e →
    decryptBlock K (.block e.nonce) arch.cipher arch.header (slice e.offset e.sizeStored arch.writer.bytes) i = .ok m →
    HoldsSealed arch ((EncryptedData.block e.nonce).seal i arch.header.archiveId) m

variable (K) in
/-- Nothing that the reader opens is a forgery: its index, and each block that the index names, lies sealed in one of
the versions if it opens. Of other bytes, nonces and numbers nothing is said. -/
structure Unforged (versions : List ArchiveWriter) (r : ArchiveReader) : Prop where
  index : ∀ footer m, retrieveFooter r.reader r.path r.limits = .ok footer →
    decryptBlock K (.index footer.indexNonce) r.cipher r.header
      (slice footer.indexOffset footer.indexSizeStored r.reader) 0 = .ok m →
    ∃ v ∈ versions, v.HoldsSealed K ((EncryptedData.index footer.indexNonce).seal 0 r.header.archiveId) m
  block : ∀ i e m, r.index.block[i]? = some e →
    decryptBlock K (.block e.nonce) r.cipher r.header (slice e.offset e.sizeStored r.reader) i = .ok m →
    ∃ v ∈ versions, v.HoldsSealed K ((EncryptedData.block e.nonce).seal i r.header.archiveId) m

theorem Cipher.overhead_pos {cipher : Cipher} (h : cipher ≠ .none) : 0 < cipher.overhead := by
  cases cipher with
  | none => exact absurd rfl h
  | aes | chacha => exact Nat.succ_pos 15

/-- Every sealed block has its tag, so that there are fewer blocks than bytes. -/
theorem Finished.length_block_le {arch : ArchiveWriter} {im : Image K} {raws : List Bytes} (hf : Finished arch im raws)
    (hcipher : arch.cipher ≠ .none) : arch.index.block.length ≤ arch.filePosition := by
  obtain ⟨processed, hseals, hblock, hdata, _⟩ := hf.region.sealing
  have htag : ∀ n ∈ processed.map fun b => b.processedData.length, 1 ≤ n := by
    intro n hn
    obtain ⟨b, hb, rfl⟩ := List.mem_map.1 hn
    obtain ⟨raw, _, hseal⟩ := hseals.flip.exists_of_mem hb
    obtain ⟨kept, _, hlen, _⟩ := hseal.opens arch.header rfl
    have htag := Cipher.overhead_pos hcipher
    omega
  have hcount := List.length_le_sum_of_one_le _ htag
  rw [List.length_map] at hcount
  rw [hblock, length_blockEntries, hf.filePosition, hdata, List.length_flatMap]
  exact hcount.trans (Nat.le_add_left _ _)

/-- **What a block of a version opens to is unpacked to the block.** -/
theorem Finished.unpackBlock_of_open {arch : ArchiveWriter} {im : Image K} {raws : List Bytes}
    (hf : Finished arch im raws) (hlt : ∀ raw ∈ raws, raw.length < 2 ^ 32) {i : Nat} {e : BlockEntry}
    (he : arch.index.block[i]? = some e) {m : Bytes}
    (hopen : decryptBlock K (.block e.nonce) arch.cipher arch.header (slice e.offset e.sizeStored arch.writer.bytes) i
      = .ok m) : ∃ raw, raws[i]? = some raw ∧ unpackBlock K ⟨arch.header.compression⟩ e m = .ok raw := by
  have hi : i < raws.length := by
    rw [← hf.region.length_block]
    exact (List.getElem?_eq_some_iff.1 he).1
  refine ⟨raws[i], List.getElem?_eq_getElem hi, ?_⟩
  obtain ⟨b, pre, post, hseal, hstored, hdata, he'⟩ := hf.region.entry (List.getElem?_eq_getElem hi)
  cases he'.symm.trans he
  obtain ⟨kept, hkept, _, hunpack⟩ := hseal.opens arch.header rfl
  have hslice : slice (im.start + pre.length) (u32 b.processedData.length) arch.writer.bytes = b.processedData := by
    have hbytes : arch.writer.bytes = (im.lead ++ pre) ++ b.processedData ++
        (post ++ im.sealedIndex ++ im.footer.serialize) := by
      rw [hf.bytes, Image.bytes, hdata]
      simp
    rw [hbytes]
    exact slice_mid_of_eq (by simp) (u32_of_lt hstored)
  have hm : kept = m := by
    have hopened : decryptBlock K (.block b.nonce) arch.cipher arch.header b.processedData i = .ok m := by
      rw [← hslice]
      exact hopen
    exact Except.ok.inj (hkept.symm.trans hopened)
  subst hm
  unfold unpackBlock
  have hplain : (b.entry (im.start + pre.length)).sizePlain = raws[i].length :=
    hseal.sizePlain.trans (u32_of_lt (hlt _ (List.getElem_mem hi)))
  rw [hplain, (show (b.entry (im.start + pre.length)).isCompressed = b.isCompressed from rfl)]
  by_cases hc : b.isCompressed = true
  · rw [if_pos hc] at hunpack ⊢
    exact hunpack _ (Nat.le_refl _)
  · rw [if_neg hc] at hunpack ⊢
    rw [hunpack]

/-- The footer of a version points to its index, which opens to the bytes that encode it. -/
theorem Finished.footer (hK : K.Lawful) {arch : ArchiveWriter} {im : Image K} {raws : List Bytes}
    (hf : Finished arch im raws) (hfits : Unnarrowed K arch) : arch.footer = .ok im.footer ∧ ∃ ib kept,
      K.indexToVec arch.index = some ib ∧ unpackIndex K arch.header im.footer kept = .ok ib ∧
      decryptBlock K (.index im.footer.indexNonce) arch.cipher arch.header
        (slice im.footer.indexOffset im.footer.indexSizeStored arch.writer.bytes) 0 = .ok kept := by
  obtain ⟨sealer, nonce, hheader, hcipher, hindex, hpos, hseal⟩ := im.sealedBy
  obtain ⟨hoffset, hstored, plain, _, hplain⟩ := footer_of_sealIndex hseal
  have hstart : im.footer.indexOffset = im.start + im.data.length := hoffset.trans hpos
  have hoff := hfits.offset
  rw [hf.filePosition] at hoff
  have hfitsFooter : im.footer.Fits := by
    refine ⟨?_, hstored ▸ u32_lt _, hplain ▸ u32_lt _⟩
    rw [hstart]
    omega
  have hsealed : slice im.footer.indexOffset im.footer.indexSizeStored arch.writer.bytes = im.sealedIndex := by
    have hlt : im.sealedIndex.length < 2 ^ 32 := hf.indexSize ▸ hfits.stored
    rw [hf.bytes, Image.bytes]
    exact slice_mid_of_eq (by simp [hstart]) (hstored.trans (u32_of_lt hlt))
  have hsame : sealer.header = arch.header ∧ sealer.cipher = arch.cipher ∧ sealer.index = arch.index :=
    ⟨hheader.trans hf.header.symm, hcipher.trans hf.cipher.symm, hindex.trans hf.index.symm⟩
  obtain ⟨ib, kept, hvec, hopen, hunpack⟩ := unpackIndex_sealIndex hK hseal fun b hb =>
    hfits.index b (hsame.2.2 ▸ hb)
  rw [hsame.1] at hopen hunpack
  rw [hsame.2.1] at hopen
  exact ⟨ArchiveWriter.footer_of_end hf.bytes hfitsFooter, ib, kept, hsame.2.2 ▸ hvec, hunpack, hsealed ▸ hopen⟩

/-! ## What a forger can make -/

section

variable {arch : ArchiveWriter} {older : List ArchiveWriter} {f : Bytes}

/-- Of a version, what is needed here. -/
theorem Versions.finished (hK : K.Lawful) (h : Versions K (arch :: older)) (hfits : Unnarrowed K arch)
    (hcipher : arch.cipher ≠ .none) {v : ArchiveWriter} (hv : v ∈ arch :: older) :
    v.header = arch.header ∧ v.cipher = arch.cipher ∧ Unnarrowed K v ∧ v.index.block.length < u64Max ∧
      ∀ (im : Image K) raws, Finished v im raws → ∀ raw ∈ raws, raw.length < 2 ^ 32 := by
  have hgrown : Grown K v arch := by
    rcases List.mem_cons.1 hv with rfl | hv
    · exact .refl _
    · exact (List.pairwise_cons.1 (h.grown hK)).1 v hv
  have hfitsv : Unnarrowed K v := by
    rcases List.mem_cons.1 hv with rfl | hv
    · exact hfits
    · exact h.unnarrowed v hv
  obtain ⟨im, raws, hf, _, hsmall⟩ := (h.chain v hv).finished hK
  have hblocks := hf.length_block_le (by rw [← hgrown.cipher]; exact hcipher)
  have hoff := hfitsv.offset
  refine ⟨hgrown.header.symm, hgrown.cipher.symm, hfitsv, ?_, fun im raws hf raw hraw => ?_⟩
  · unfold u64Max
    omega
  · have hfit := hf.blockFits raw hraw
    omega

/-- Lists of which one starts with the other have the same elements where both have one. -/
theorem eq_of_prefix_getElem? {α : Type} {l l' : List α} (h : l <+: l' ∨ l' <+: l) {i : Nat} {a b : α}
    (ha : l[i]? = some a) (hb : l'[i]? = some b) : a = b := by
  obtain ⟨hi, rfl⟩ := List.getElem?_eq_some_iff.1 ha
  obtain ⟨hi', rfl⟩ := List.getElem?_eq_some_iff.1 hb
  rcases h with h | h
  · exact h.getElem hi
  · exact (h.getElem hi').symm

/-- Two versions have the same blocks as far as they both go. -/
theorem Versions.agree (hK : K.Lawful) (h : Versions K (arch :: older)) {v w : ArchiveWriter} (hv : v ∈ arch :: older)
    (hw : w ∈ arch :: older) : (v.index.block <+: w.index.block ∨ w.index.block <+: v.index.block) ∧
      ∃ (im im' : Image K) (raws raws' : List Bytes), Finished v im raws ∧ Finished w im' raws' ∧
        (raws <+: raws' ∨ raws' <+: raws) := by
  rcases h.linear hK hv hw with hgrown | hgrown
  · obtain ⟨im, raws, hf, _⟩ := (h.chain v hv).finished hK
    obtain ⟨im', more, hf'⟩ := hgrown.stream im raws hf
    exact ⟨.inl hgrown.block, im, im', raws, raws ++ more, hf, hf', .inl (List.prefix_append _ _)⟩
  · obtain ⟨im, raws, hf, _⟩ := (h.chain w hw).finished hK
    obtain ⟨im', more, hf'⟩ := hgrown.stream im raws hf
    exact ⟨.inr hgrown.block, im', im, raws ++ more, raws, hf', hf, .inr (List.prefix_append _ _)⟩

/-- **A block that opens** is the block of its number in some version. -/
theorem Versions.holds_block (hK : K.Lawful) (h : Versions K (arch :: older)) (hfits : Unnarrowed K arch)
    (hcipher : arch.cipher ≠ .none) {v : ArchiveWriter} (hv : v ∈ arch :: older) {nonce : Nonce} {i : Nat}
    (hi : i < u64Max) {m : Bytes}
    (hholds : v.HoldsSealed K ((EncryptedData.block nonce).seal i arch.header.archiveId) m) :
    ∃ e, v.index.block[i]? = some e ∧
      decryptBlock K (.block e.nonce) v.cipher v.header (slice e.offset e.sizeStored v.writer.bytes) i = .ok m := by
  obtain ⟨_, _, _, hcount, _⟩ := h.finished hK hfits hcipher hv
  have hmax : u64Max < 2 ^ 64 := by decide
  generalize hplace : (EncryptedData.block nonce).seal i arch.header.archiveId = place at hholds
  cases hholds with
  | index =>
    -- an index is sealed under the number that no block has
    obtain ⟨hnumber, _⟩ := (aad_inj (by omega) hmax).1 (Prod.mk.inj hplace).2
    omega
  | @block j e _ he hopen =>
    have hj := (List.getElem?_eq_some_iff.1 he).1
    obtain ⟨rfl, _⟩ := (aad_inj (by omega) (by omega)).1 (Prod.mk.inj hplace).2
    exact ⟨e, he, hopen⟩

/-- **An index that opens** is that of some version. -/
theorem Versions.holds_index (hK : K.Lawful) (h : Versions K (arch :: older)) (hfits : Unnarrowed K arch)
    (hcipher : arch.cipher ≠ .none) {v : ArchiveWriter} (hv : v ∈ arch :: older) {nonce : Nonce} {m : Bytes}
    (hholds : v.HoldsSealed K ((EncryptedData.index nonce).seal 0 arch.header.archiveId) m) :
    ∃ footer, v.footer = .ok footer ∧ decryptBlock K (.index footer.indexNonce) v.cipher v.header
      (slice footer.indexOffset footer.indexSizeStored v.writer.bytes) 0 = .ok m := by
  obtain ⟨_, _, _, hcount, _⟩ := h.finished hK hfits hcipher hv
  have hmax : u64Max < 2 ^ 64 := by decide
  generalize hplace : (EncryptedData.index nonce).seal 0 arch.header.archiveId = place at hholds
  cases hholds with
  | index hfooter hopen => exact ⟨_, hfooter, hopen⟩
  | @block j e _ he _ =>
    have hj := (List.getElem?_eq_some_iff.1 he).1
    obtain ⟨hnumber, _⟩ := (aad_inj hmax (by omega)).1 (Prod.mk.inj hplace).2
    omega

theorem readAt_slice {off len : Nat} {b : Bytes} (h : readAt f off len = .ok b) : b = slice off len f := by
  unfold readAt at h
  split at h
  · exact (Except.ok.inj h).symm
  · cases h

/-- **A block that opens in its place** and is no forgery has the content of that place in any version that has it. -/
theorem Versions.readBlock (hK : K.Lawful) (h : Versions K (arch :: older)) (hfits : Unnarrowed K arch)
    (hcipher : arch.cipher ≠ .none) {v : ArchiveWriter} (hv : v ∈ arch :: older) (p out : Path) (limits : Limits)
    (hunforged : Unforged K (arch :: older) ((v.reader p out limits).withBytes f)) {i : Nat} {e : BlockEntry}
    (he : v.index.block[i]? = some e) {plain : Bytes}
    (hread : ((v.reader p out limits).withBytes f).readBlock K e i (v.reader p out limits).engine = .ok plain) :
    (v.reader p out limits).readBlock K e i (v.reader p out limits).engine = .ok plain := by
  obtain ⟨hheader, hcipherv, hfitsv, hcount, hshort⟩ := h.finished hK hfits hcipher hv
  have hi : i < v.index.block.length := (List.getElem?_eq_some_iff.1 he).1
  -- what was opened of `f`
  obtain ⟨hopen, _⟩ := ArchiveReader.readBlock_ok.1 hread
  unfold ArchiveReader.openBlock at hopen
  obtain ⟨_, _, hopen⟩ := Except.bind_eq_ok.1 hopen
  obtain ⟨_, _, hopen⟩ := Except.bind_eq_ok.1 hopen
  obtain ⟨_, _, hopen⟩ := Except.bind_eq_ok.1 hopen
  obtain ⟨stored, hstored, hopen⟩ := Except.bind_eq_ok.1 hopen
  obtain ⟨m, hdecrypt, hunpack⟩ := Except.bind_eq_ok.1 hopen
  rw [openStored_eq] at hdecrypt
  have hslice : stored = slice e.offset e.sizeStored f := readAt_slice (ioFailed_ok.1 hstored)
  subst hslice
  -- it was sealed for a version `w`, as the same block
  obtain ⟨w, hw, hholds⟩ := hunforged.block i e m he hdecrypt
  have hholds : w.HoldsSealed K ((EncryptedData.block e.nonce).seal i v.header.archiveId) m := hholds
  rw [hheader] at hholds
  obtain ⟨e', he', hsealed⟩ := h.holds_block hK hfits hcipher hw (by omega) hholds
  obtain ⟨hheaderw, _, _, _, hshortw⟩ := h.finished hK hfits hcipher hw
  obtain ⟨hblocks, im, im', raws, raws', hf, hf', hraws⟩ := h.agree hK hv hw
  obtain rfl : e = e' := eq_of_prefix_getElem? hblocks he he'
  obtain ⟨raw, hraw, hplain⟩ := hf'.unpackBlock_of_open (hshortw im' raws' hf') he' hsealed
  have hsame : raw = plain := by
    rw [hheaderw, ← hheader] at hplain
    exact Except.ok.inj (hplain.symm.trans hunpack)
  subst hsame
  -- and `v` has the same raw block there
  obtain ⟨raw', hraw'⟩ : ∃ raw', raws[i]? = some raw' :=
    ⟨_, List.getElem?_eq_getElem (by rw [← hf.region.length_block]; exact hi)⟩
  obtain rfl := eq_of_prefix_getElem? hraws hraw' hraw
  obtain ⟨e₀, he₀, hread₀, _⟩ := hf.readBlock hfitsv.offset p out limits hraw'
    (hshort im raws hf _ (List.mem_of_getElem? hraw'))
  cases he₀.symm.trans he
  exact hread₀

/-! ## The index -/

theorem takeLimited_eq {decoded : Bytes × Bool} {n : Nat} {d : Bytes} (h : takeLimited decoded n = .ok d) :
    d = decoded.1 := by
  unfold takeLimited at h
  dsimp only at h
  split at h
  · cases h
  · split at h
    · cases h
    · rename_i hlen
      cases h
      refine List.take_of_length_le ?_
      rw [List.length_take] at hlen
      omega

/-- A cap on the size decides whether there is a result, not what it is. -/
theorem decompress_cap (hcap : ∀ c n n' d d', K.zstdDecompress c n = some d → K.zstdDecompress c n' = some d' → d = d')
    {engine : DecompressingEngine} {c d d' : Bytes} {n n' : Nat} (h : engine.decompress K c n = .ok d)
    (h' : engine.decompress K c n' = .ok d') : d = d' := by
  unfold DecompressingEngine.decompress at h h'
  cases hengine : engine.engine <;> rw [hengine] at h h'
  case zstd =>
    cases hd : K.zstdDecompress c n with
    | none => rw [hd] at h; cases h
    | some x =>
      cases hd' : K.zstdDecompress c n' with
      | none => rw [hd'] at h'; cases h'
      | some x' =>
        rw [hd] at h
        rw [hd'] at h'
        cases h
        cases h'
        exact hcap _ _ _ _ _ hd hd'
  case xz | deflate => exact (takeLimited_eq h).trans (takeLimited_eq h').symm
  case none => exact Except.ok.inj (h.symm.trans h')

/-- **The index of a file that opens** is that of a version, if its footer says in the same way whether the index is
compressed. -/
theorem Versions.index (hK : K.Lawful)
    (hcap : ∀ c n n' d d', K.zstdDecompress c n = some d → K.zstdDecompress c n' = some d' → d = d')
    (h : Versions K (arch :: older)) (hfits : Unnarrowed K arch) (hcipher : arch.cipher ≠ .none) {p : Path}
    {footer : Footer} (hunforged : ∀ m, decryptBlock K (.index footer.indexNonce) arch.cipher arch.header
      (slice footer.indexOffset footer.indexSizeStored f) 0 = .ok m → ∃ v ∈ arch :: older,
        v.HoldsSealed K ((EncryptedData.index footer.indexNonce).seal 0 arch.header.archiveId) m) {index : Index}
    (hindex : retrieveIndex K f p arch.header footer arch.cipher = .ok index) :
    ∃ v ∈ arch :: older, ∃ stored, v.footer = .ok stored ∧
      (footer.indexCompressed = stored.indexCompressed → index = v.index) := by
  obtain ⟨_, _, hindex⟩ := Except.bind_eq_ok.1 hindex
  obtain ⟨stored, hstored, hindex⟩ := Except.bind_eq_ok.1 hindex
  obtain ⟨m, hdecrypt, hindex⟩ := Except.bind_eq_ok.1 hindex
  obtain ⟨ib, hunpack, hdecode⟩ := Except.bind_eq_ok.1 hindex
  rw [openStored_eq] at hdecrypt
  have hslice : stored = slice footer.indexOffset footer.indexSizeStored f := readAt_slice (ioFailed_ok.1 hstored)
  subst hslice
  obtain ⟨v, hv, hholds⟩ := hunforged m hdecrypt
  obtain ⟨stored, hfooter, hopen⟩ := h.holds_index hK hfits hcipher hv hholds
  obtain ⟨hheader, _, hfitsv, _⟩ := h.finished hK hfits hcipher hv
  obtain ⟨im, raws, hf, _⟩ := (h.chain v hv).finished hK
  obtain ⟨hfooter', ib', kept, hvec, hunpack', hkept⟩ := hf.footer hK hfitsv
  obtain rfl : stored = im.footer := Except.ok.inj (hfooter.symm.trans hfooter')
  obtain rfl : kept = m := Except.ok.inj (hkept.symm.trans hopen)
  refine ⟨v, hv, _, hfooter, fun hflag => ?_⟩
  have hsame : ib = ib' := by
    rw [hheader] at hunpack'
    unfold unpackIndex at hunpack hunpack'
    rw [hflag] at hunpack
    split at hunpack
    · rename_i hc
      rw [if_pos hc] at hunpack'
      obtain ⟨engine, hengine, hunpack⟩ := Except.bind_eq_ok.1 hunpack
      obtain ⟨engine', hengine', hunpack'⟩ := Except.bind_eq_ok.1 hunpack'
      obtain rfl : engine = engine' := Except.ok.inj (hengine.symm.trans hengine')
      exact decompress_cap hcap hunpack hunpack'
    · rename_i hc
      rw [if_neg hc] at hunpack'
      exact Except.ok.inj (hunpack.symm.trans hunpack')
  subst hsame
  rw [hK.index hvec] at hdecode
  exact (Except.ok.inj hdecode).symm

end

/-! ## Extracting what was tampered with -/

namespace ArchiveReader

variable {r : ArchiveReader} {bytes : Bytes}

theorem extractEntries_below (blocks : List (Nat × Nat))
    (h : ∀ f outDir, Act.Below ((r.withBytes bytes).extractFile K f outDir blocks) (r.extractFile K f outDir blocks)) :
    ∀ files, Act.Below ((r.withBytes bytes).extractEntries K blocks files) (r.extractEntries K blocks files)
  | [] => .refl _
  | f :: files => .bind (.bind (.refl _) fun outDir => h f outDir) fun _ => extractEntries_below blocks h files

end ArchiveReader

/-- **Tampering with an encrypted archive is noticed.** Any file `f` that has the archive's header and opens with its
password, and of which the reader opens no forgery, is read as one of the versions that the archive has had, as long as
its footer says as in that version whether the index is compressed: it has the version's index, an extraction that
succeeds does what that of the version does, and one that fails has not written a byte that is not the version's. -/
theorem tampering_noticed (hK : K.Lawful)
    (hcap : ∀ c n n' d d', K.zstdDecompress c n = some d → K.zstdDecompress c n' = some d' → d = d')
    {arch : ArchiveWriter} {older : List ArchiveWriter} (h : Versions K (arch :: older)) (hfits : Unnarrowed K arch)
    (hcipher : arch.cipher ≠ .none) {f : Bytes} {p out : Path} {limits : Limits} {prompts : Prompts} {confirm : Bool}
    {r : ArchiveReader} (hunforged : Unforged K (arch :: older) r)
    (hkey : Cipher.new K prompts arch.header confirm = .ok arch.cipher)
    (hload : ArchiveReader.new K f p out limits prompts confirm = .ok r) (hheader : r.header = arch.header) :
    ∃ v ∈ arch :: older, ∃ footer stored, retrieveFooter f p limits = .ok footer ∧ v.footer = .ok stored ∧
      (footer.indexCompressed = stored.indexCompressed →
        let original := v.reader p out limits
        r = original.withBytes f ∧ Act.Below (r.handleFiles K) (original.handleFiles K) ∧
        ∀ e ∈ r.index.files, e.ftype = .file → ∃ content, original.decodeEntry K e = .ok content ∧
          ∀ outDir (w : World), w.Leads (fun ch => ∀ c m t, ch.node = some (.file c m t) → c <+: content)
            (r.extractFile K e outDir (buildBlockRanges r.index.block) w).2) := by
  obtain ⟨s, hret, rfl⟩ := ArchiveReader.new_ok.1 hload
  obtain ⟨_, hfooter, hcipherNew, hindex⟩ := retrieve_ok.1 hret
  have hheader : s.header = arch.header := hheader
  rw [hheader, hkey] at hcipherNew
  have hsame : s.cipher = arch.cipher := (Except.ok.inj hcipherNew).symm
  rw [hheader, hsame] at hindex
  have hheld := hunforged.index s.footer
  simp only [hheader, hsame] at hheld
  obtain ⟨v, hv, stored, hstored, hflag⟩ := h.index hK hcap hfits hcipher (hheld · hfooter) hindex
  refine ⟨v, hv, s.footer, stored, hfooter, hstored, fun hcompressed => ?_⟩
  obtain ⟨hheaderv, hcipherv, hfitsv, _, hshort⟩ := h.finished hK hfits hcipher hv
  obtain ⟨im, raws, hf, hengine, hsmall⟩ := (h.chain v hv).finished hK
  have hreader : (⟨out, p, f, s.index, s.header, s.cipher, limits⟩ : ArchiveReader) =
      (v.reader p out limits).withBytes f := by
    unfold ArchiveWriter.reader ArchiveReader.withBytes
    rw [hflag hcompressed, hheader, hsame, hheaderv, hcipherv]
  rw [hreader] at hunforged ⊢
  have hread : ∀ {i e plain}, v.index.block[i]? = some e →
      ((v.reader p out limits).withBytes f).readBlock K e i (v.reader p out limits).engine = .ok plain →
      (v.reader p out limits).readBlock K e i (v.reader p out limits).engine = .ok plain := fun he =>
    h.readBlock hK hfits hcipher hv p out limits hunforged he
  have hbelow : ∀ e outDir, Act.Below
      (((v.reader p out limits).withBytes f).extractFile K e outDir (buildBlockRanges v.index.block))
      ((v.reader p out limits).extractFile K e outDir (buildBlockRanges v.index.block)) := fun e outDir =>
    ArchiveReader.extractFile_below ((v.reader p out limits).withBytes f) v.writer.bytes outDir _
      fun i block hb a b start stop piece =>
        ArchiveReader.blockSlice_of_readBlock ((v.reader p out limits).withBytes f) v.writer.bytes
          fun plain hp _ => hread hb hp
  refine ⟨rfl, ?_, fun e _ hft => ⟨_, hf.decodeEntry hsmall hfitsv.offset hengine p out limits e, fun outDir w => ?_⟩⟩
  · exact .bind (.refl _) fun _ => ArchiveReader.extractEntries_below _ hbelow _
  · have hdec := hf.decoded hfitsv.offset (hshort im raws hf) p out limits
    have hdec' : ((v.reader p out limits).withBytes f).Decoded K (v.reader p out limits).engine raws :=
      ⟨hdec.lengths, fun hb hp hsum => hdec.reads hb (hread hb hp) hsum⟩
    exact ArchiveReader.extractFile_leads hdec' hft outDir w

/-! ## A byte changed -/

/-- What a cipher seals: a key, a nonce, associated data and a message. -/
abbrev SealRecord := Key × Nonce × Bytes × Bytes

/-- Only what is in the record is sealed, and its tag is its place in the record. -/
def recordedEncrypt (record : List SealRecord) (k : Key) (n : Nonce) (a m : Bytes) : Option Bytes :=
  (record.findIdx? (· = (k, n, a, m))).map fun i => m ++ leBytes 16 i

/-- Only what is in the record opens. -/
def recordedDecrypt (record : List SealRecord) (k : Key) (n : Nonce) (a c : Bytes) : Option Bytes :=
  let m := c.take (c.length - 16)
  if record[leVal (c.drop (c.length - 16))]? = some (k, n, a, m) then some m else none

/-- Crates whose ciphers seal by such a record, with one password for the salt as key. -/
def Crates.recorded (record : List SealRecord) (headers : List Header) (indexes : List Index) : Crates :=
  { Crates.tabled headers indexes with
    aesEncrypt := recordedEncrypt record
    aesDecrypt := recordedDecrypt record
    chachaEncrypt := recordedEncrypt record
    chachaDecrypt := recordedDecrypt record
    argon2 := fun _ salt password => some (if password = "key" then salt else Vector.replicate 32 1) }

section

variable {record : List SealRecord} {k : Key} {n : Nonce} {a m c : Bytes}

theorem recordedEncrypt_eq (h : recordedEncrypt record k n a m = some c) :
    ∃ i, record[i]? = some (k, n, a, m) ∧ i < record.length ∧ c = m ++ leBytes 16 i := by
  obtain ⟨i, hi, rfl⟩ := Option.map_eq_some_iff.1 h
  obtain ⟨hlt, hrecord, _⟩ := List.findIdx?_eq_some_iff_getElem.1 hi
  exact ⟨i, by rw [List.getElem?_eq_getElem hlt]; simpa using hrecord, hlt, rfl⟩

theorem recordedDecrypt_append {i : Nat} (hi : i < 256 ^ 16) (hget : record[i]? = some (k, n, a, m)) :
    recordedDecrypt record k n a (m ++ leBytes 16 i) = some m := by
  have hsize : (m ++ leBytes 16 i).length - 16 = m.length := by simp
  unfold recordedDecrypt
  rw [hsize, List.drop_left, List.take_left, leVal_leBytes hi]
  exact if_pos hget

theorem Crates.recorded_lawful (hlen : record.length < 256 ^ 16) (headers : List Header) (indexes : List Index) :
    (recorded record headers indexes).Lawful :=
  have hseal : ∀ {k n a m c}, recordedEncrypt record k n a m = some c →
      recordedDecrypt record k n a c = some m ∧ c.length = m.length + 16 := by
    intro k n a m c h
    obtain ⟨i, hget, hlt, rfl⟩ := recordedEncrypt_eq h
    exact ⟨recordedDecrypt_append (hlt.trans hlen) hget, by simp⟩
  { tabled_lawful headers indexes with aes := hseal, chacha := hseal }

theorem mem_of_recordedDecrypt (h : recordedDecrypt record k n a c = some m) : (k, n, a, m) ∈ record := by
  unfold recordedDecrypt at h
  dsimp only at h
  split at h
  · rename_i hget
    cases h
    exact List.mem_of_getElem? hget
  · cases h

end

/-- The header of the archive of `src/a`, sealed. -/
def Header.sealed : Header := { Header.stored 2 with encryption := .aes }

/-- The index of `src/a`, whose two blocks are stored with their tags. -/
def indexOfSealed : Index where
  files := [plainFile "a" 0 3]
  block := [{ plainBlock 4 [1, 2] with sizeStored := 18 }, { plainBlock 22 [3] with sizeStored := 17 }]
  totalStreamSize := 3

/-- The two blocks and the index. -/
def sealsOfA : List SealRecord :=
  let key : Key := Vector.replicate 32 0
  let n : Nonce := Vector.replicate 12 0
  let id : ArchiveId := Vector.replicate 16 0
  [(key, n, aad 0 id, [1, 2]), (key, n, aad 1 id, [3]), (key, n, aad u64Max id, [])]

def sealedCrates : Crates := .recorded sealsOfA [Header.sealed] [indexOfSealed]

theorem sealedCrates_lawful : sealedCrates.Lawful := Crates.recorded_lawful (by decide) _ _

/-- The bytes of that archive before its footer. -/
def sealedBytes : Bytes := [0, 0, 0, 0] ++ ([1, 2] ++ leBytes 16 0) ++ ([3] ++ leBytes 16 1) ++ leBytes 16 2

/-- Its footer. -/
def sealedFooter : Footer := ⟨39, 16, 0, false, Vector.replicate 12 0⟩

/-- The archive of `src/a`, made with the password. -/
theorem exists_sealed : ∃ arch : ArchiveWriter, Versions sealedCrates [arch] ∧ Unnarrowed sealedCrates arch ∧
    arch.shown = (sealedBytes ++ sealedFooter.serialize, indexOfSealed, 39, Header.sealed,
      .aes (Vector.replicate 32 0)) := by
  obtain ⟨arch, hmade, hshown⟩ := Except.exists_of_toOption_map (f := ArchiveWriter.shown)
    (x := initializeCompression sealedCrates { Setup.single with prompts := ⟨some "key", none⟩ }
      (Env.plain (Os.ofFiles [([.normal "src", .normal "a"], 3, [1, 2, 3])]))
      { CompressArgs.single with bs := 2, encryptionType := .aes })
    (b := (sealedBytes ++ sealedFooter.serialize, indexOfSealed, 39, Header.sealed, .aes (Vector.replicate 32 0)))
    (by decide +kernel)
  have hversions : Versions sealedCrates [arch] :=
    .compress (by decide) (by decide) (Os.ofFiles_still (by decide)) (fun _ _ h => by cases h) hmade
  have hshort : (∀ h b, sealedCrates.headerToVec h = some b → b.length < 2 ^ 32) ∧
      ∀ x b, sealedCrates.indexToVec x = some b → b.length < 2 ^ 32 := Crates.tabled_short (by decide) (by decide)
  have hbytes : arch.writer.bytes = sealedBytes ++ sealedFooter.serialize := congrArg (·.1) hshown
  exact ⟨arch, hversions, (hversions.chain _ List.mem_cons_self).unnarrowed sealedCrates_lawful
    (hshort.1 _) (hshort.2 _) (by rw [hbytes]; decide +kernel), hshown⟩

/-- A byte of the first block of `src/a` is changed. -/
theorem tampering_noticed_byte :
    let K := sealedCrates
    let prompts : Prompts := ⟨some "key", none⟩
    ∃ (arch : ArchiveWriter) (r : ArchiveReader), Versions K [arch] ∧ arch.cipher ≠ .none ∧
      ArchiveReader.new K (overwrite 4 [9] arch.writer.bytes) [] [] Limits.default prompts false = .ok r ∧
      r.index = arch.index ∧ r.reader ≠ arch.writer.bytes ∧
      Act.Below (r.handleFiles K) ((arch.reader [] [] Limits.default).handleFiles K) := by
  intro K prompts
  obtain ⟨arch, hversions, hfits, hshown⟩ := exists_sealed
  unfold ArchiveWriter.shown at hshown
  simp only [Prod.mk.injEq] at hshown
  obtain ⟨hbytes, hindex, _, hheader, hcipher⟩ := hshown
  have hheld : ∀ x ∈ sealsOfA, arch.HoldsSealed K (x.2.1, x.2.2.1) x.2.2.2 := by
    have hfooter : arch.footer = .ok sealedFooter := by
      unfold ArchiveWriter.footer
      rw [hbytes]
      decide +kernel
    have hblock : ∀ i e m, indexOfSealed.block[i]? = some e → decryptBlock K (.block e.nonce)
        (.aes (Vector.replicate 32 0)) Header.sealed
        (slice e.offset e.sizeStored (sealedBytes ++ sealedFooter.serialize)) i = .ok m →
        arch.HoldsSealed K ((EncryptedData.block e.nonce).seal i Header.sealed.archiveId) m := by
      intro i e m he hopen
      rw [← hindex] at he
      rw [← hbytes, ← hcipher, ← hheader] at hopen
      rw [← hheader]
      exact .block he hopen
    intro x hx
    simp only [sealsOfA, List.mem_cons, List.not_mem_nil, or_false] at hx
    rcases hx with rfl | rfl | rfl
    · exact hblock 0 _ [1, 2] rfl (by decide +kernel)
    · exact hblock 1 _ [3] rfl (by decide +kernel)
    · have hopen : decryptBlock K (.index sealedFooter.indexNonce) arch.cipher arch.header
          (slice sealedFooter.indexOffset sealedFooter.indexSizeStored arch.writer.bytes) 0 = .ok [] := by
        rw [hbytes, hcipher, hheader]
        decide +kernel
      have hheldIndex := ArchiveWriter.HoldsSealed.index hfooter hopen
      rw [hheader] at hheldIndex
      exact hheldIndex
  obtain ⟨r, hload, hr⟩ := Except.exists_of_toOption_map
    (x := ArchiveReader.new K (overwrite 4 [9] arch.writer.bytes) [] [] Limits.default prompts false)
    (f := fun r => (r.header, r.cipher)) (b := (Header.sealed, .aes (Vector.replicate 32 0)))
    (by rw [hbytes]; decide +kernel)
  obtain ⟨hrheader, hrcipher⟩ := Prod.mk.inj hr
  have hopened : ∀ {encd i c m}, decryptBlock K encd r.cipher r.header c i = .ok m →
      ∃ v ∈ [arch], v.HoldsSealed K (encd.seal i r.header.archiveId) m := fun hopen => by
    rw [hrcipher] at hopen
    exact ⟨arch, List.mem_cons_self, hheld _ (mem_of_recordedDecrypt (sealed_ok.1 hopen))⟩
  have hunforged : Unforged K [arch] r := ⟨fun _ _ _ => hopened, fun _ _ _ _ => hopened⟩
  have hne : arch.cipher ≠ .none := by rw [hcipher]; simp
  obtain ⟨v, hv, footer', stored, hfooter, hstored, hall⟩ := tampering_noticed sealedCrates_lawful
    (fun c n n' d d' h h' => by cases h; cases h'; rfl) hversions hfits hne hunforged
    (by rw [hheader, hcipher]; rfl) hload (hrheader.trans hheader.symm)
  obtain rfl := List.mem_singleton.1 hv
  have hplain : footer'.indexCompressed = stored.indexCompressed := by
    have hflag : (retrieveFooter (overwrite 4 [9] v.writer.bytes) [] Limits.default).toOption.map
        Footer.indexCompressed = some false := by
      rw [hbytes]
      decide +kernel
    have hflag' : v.footer.toOption.map Footer.indexCompressed = some false := by
      unfold ArchiveWriter.footer
      rw [hbytes]
      decide +kernel
    rw [hfooter] at hflag
    rw [hstored] at hflag'
    exact (Option.some.inj hflag).trans (Option.some.inj hflag').symm
  obtain ⟨hsame, hbelow, _⟩ := hall hplain
  refine ⟨v, r, hversions, hne, hload, by rw [hsame]; rfl, ?_, hbelow⟩
  rw [hsame]
  show overwrite 4 [9] v.writer.bytes ≠ v.writer.bytes
  rw [hbytes]
  decide +kernel

/-! ## Another password -/

variable (K) in
/-- The sealed index of the archive does not open with the key. -/
def ArchiveWriter.ClosedTo (arch : ArchiveWriter) (cipher : Cipher) : Prop :=
  ∀ footer m, arch.footer = .ok footer → decryptBlock K (.index footer.indexNonce) cipher arch.header
    (slice footer.indexOffset footer.indexSizeStored arch.writer.bytes) 0 ≠ .ok m

/-- **With another key nothing is loaded.** -/
theorem Chain.retrieve_other (hK : K.Lawful) {arch : ArchiveWriter} (h : Chain K arch) (hfits : Unnarrowed K arch)
    {prompts : Prompts} {confirm : Bool} {cipher : Cipher}
    (hkey : Cipher.new K prompts arch.header confirm = .ok cipher) (hclosed : arch.ClosedTo K cipher) (p : Path)
    (limits : Limits) (s : FileStructs) : retrieve K arch.writer.bytes p limits prompts confirm ≠ .ok s := by
  intro hload
  obtain ⟨im, raws, hf, _⟩ := h.finished hK
  have hw := hf.within (hf.sizes_of_retrieve hK hfits hload)
  obtain ⟨hheader, hfooter, hcipher, hindex⟩ := retrieve_ok.1 hload
  rw [hf.bytes, Image.retrieveHeader_image hK hw] at hheader
  rw [hf.bytes, Image.retrieveFooter_image hw] at hfooter
  have hsame : s.header = arch.header := (Except.ok.inj hheader).symm.trans hf.header.symm
  rw [hsame, hkey] at hcipher
  rw [hsame, ← Except.ok.inj hcipher, ← Except.ok.inj hfooter] at hindex
  -- the index is opened before anything of it is used
  obtain ⟨_, _, hindex⟩ := Except.bind_eq_ok.1 hindex
  obtain ⟨stored, hstored, hindex⟩ := Except.bind_eq_ok.1 hindex
  obtain ⟨m, hopen, _⟩ := Except.bind_eq_ok.1 hindex
  rw [openStored_eq, readAt_slice (ioFailed_ok.1 hstored)] at hopen
  exact hclosed _ m (hf.footer hK hfits).1 hopen

/-- **A wrong password does nothing.** For an archive after any history, and a password whose key does not open its
sealed index, opening the archive fails under any limits; and a call of `append_file` with it, in any schedule of its
threads and whatever else fails, does not succeed and leaves the archive as it was. -/
theorem wrong_password (hK : K.Lawful) {arch : ArchiveWriter} (h : Chain K arch) (hfits : Unnarrowed K arch)
    {prompts : Prompts} {confirm : Bool} {cipher : Cipher}
    (hkey : Cipher.new K prompts arch.header confirm = .ok cipher) (hclosed : arch.ClosedTo K cipher) :
    (∀ p out limits r, ArchiveReader.new K arch.writer.bytes p out limits prompts confirm ≠ .ok r) ∧
    ∀ (task : AppendTask) moves d₀ d c, Stands task.archive task.copy d₀ arch → task.setup.prompts = prompts →
      task.args.confirm = confirm → task.run K moves d₀ .start = some (d, c) →
      c.stage ≠ .returned (.ok ()) ∧ d.read task.archive = some arch.writer.bytes := by
  refine ⟨fun p out limits r hnew => ?_, fun task moves d₀ d c hstands hprompts hconfirm hrun => ?_⟩
  · obtain ⟨s, hload, _⟩ := ArchiveReader.new_ok.1 hnew
    exact h.retrieve_other hK hfits hkey hclosed p limits s hload
  · obtain ⟨hok, hother⟩ := call_outcome hstands hrun
    have hnot : c.stage ≠ .returned (.ok ()) := by
      intro hreturned
      obtain ⟨draws, arch', happ, _⟩ := hok hreturned
      obtain ⟨s, _, _, _, _, hload, _⟩ := appendFile_ok (happ .sequential)
      rw [hprompts, hconfirm] at hload
      exact h.retrieve_other hK hfits hkey hclosed _ _ s hload
    exact ⟨hnot, (hother hnot).read⟩

/-- The password mistyped. -/
theorem wrong_password_kez :
    let K := sealedCrates
    ∃ arch : ArchiveWriter, Chain K arch ∧
      (∃ r, ArchiveReader.new K arch.writer.bytes [] [] Limits.default ⟨some "key", none⟩ false = .ok r) ∧
      ∀ limits r, ArchiveReader.new K arch.writer.bytes [] [] limits ⟨some "kez", none⟩ false ≠ .ok r := by
  intro K
  obtain ⟨arch, hversions, hfits, hshown⟩ := exists_sealed
  have hchain := hversions.chain arch List.mem_cons_self
  unfold ArchiveWriter.shown at hshown
  simp only [Prod.mk.injEq] at hshown
  obtain ⟨hbytes, _, _, hheader, hcipher⟩ := hshown
  have hkey : Cipher.new K ⟨some "kez", none⟩ arch.header false = .ok (.aes (Vector.replicate 32 1)) := by
    rw [hheader]
    decide +kernel
  have hclosed : arch.ClosedTo K (.aes (Vector.replicate 32 1)) := by
    intro footer m _ hopen
    -- what is in the record was sealed with the other key
    have hrecorded := mem_of_recordedDecrypt (sealed_ok.1 hopen)
    have hkeys : ∀ x ∈ sealsOfA, x.1 = Vector.replicate 32 0 := by decide +kernel
    have hne : (Vector.replicate 32 1 : Key) ≠ Vector.replicate 32 0 := by decide +kernel
    exact hne (hkeys _ hrecorded)
  obtain ⟨hnot, _⟩ := wrong_password sealedCrates_lawful hchain hfits hkey hclosed
  obtain ⟨r, hload, _⟩ := Except.exists_of_toOption_map
    (x := ArchiveReader.new K arch.writer.bytes [] [] Limits.default ⟨some "key", none⟩ false)
    (f := fun _ => true) (b := true) (by rw [hbytes]; decide +kernel)
  exact ⟨arch, hchain, ⟨r, hload⟩, fun limits r => hnot [] [] limits r⟩

end Cryo
