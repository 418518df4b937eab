import Cryo.History

/-!
# What is written, against the default limits

`list`, `verify` and `append` load an archive with the default limits. What a compression writes is admitted by them
exactly when the block size and the recorded sizes of the index are within these limits; the writer checks neither.

* `compressed_admitted_iff`: when the produced archive is not rejected as too large.
* `large_blocks_rejected`: a compression that succeeds and whose archive is rejected.
-/

namespace Cryo

open Posix Bytes Chunk

/-- The errors that say that something is above a limit of the loader. -/
def CryoErrors.oversized : CryoErrors → Bool
  | .blockTooLarge _ _ | .indexTooLarge _ _ | .headerTooLarge _ _ | .mCostTooLarge _ _ => true
  | _ => false

/-- The result is not one of these errors. -/
def Admitted {α : Type} (x : Result α) : Prop := ∀ e, x = .error e → e.oversized = false

namespace Admitted

variable {α β : Type}

theorem ok (a : α) : Admitted (.ok a : Result α) := fun _ h => by cases h

theorem error {e : CryoErrors} (h : e.oversized = false) : Admitted (.error e : Result α) := fun _ he => by
  cases he; exact h

theorem bind {x : Result α} {f : α → Result β} (hx : Admitted x) (hf : ∀ a, x = .ok a → Admitted (f a)) :
    Admitted (x >>= f) := by
  cases x with
  | ok a => exact hf a rfl
  | error e => exact error (hx e rfl)

theorem elim {o : Option α} {e : CryoErrors} (h : e.oversized = false) :
    Admitted (o.elim (.error e) .ok : Result α) := by
  cases o with
  | none => exact error h
  | some a => exact ok a

theorem ioFailed (p : Path) (x : Except Errno α) : Admitted (Cryo.ioFailed p x) := by
  cases x with
  | ok a => exact ok a
  | error e => exact error rfl

end Admitted

variable {K : Crates}

theorem admitted_takeLimited (d : Bytes × Bool) (n : Nat) : Admitted (takeLimited d n) := by
  unfold takeLimited
  dsimp only
  split
  · exact .error rfl
  · split
    · exact .error rfl
    · exact .ok _

theorem admitted_decompress (e : DecompressingEngine) (d : Bytes) (n : Nat) : Admitted (e.decompress K d n) := by
  unfold DecompressingEngine.decompress
  split
  · exact .elim rfl
  · exact admitted_takeLimited _ _
  · exact admitted_takeLimited _ _
  · exact .ok _

theorem admitted_newEngine (c : Compressor) : Admitted (DecompressingEngine.new K c) := by
  unfold DecompressingEngine.new
  split
  · exact .error rfl
  · exact .ok _

theorem admitted_decryptBlock (encd : EncryptedData) (c : Cipher) (h : Header) (d : Bytes) (n : Nat) :
    Admitted (decryptBlock K encd c h d n) := by
  unfold decryptBlock
  cases c <;> first | exact .ok _ | exact .elim rfl

theorem admitted_newCipher (prompts : Prompts) (h : Header) (confirm : Bool) :
    Admitted (Cipher.new K prompts h confirm) := by
  have hprompt : ∀ o, Admitted (promptForPassword o) := fun o => by
    cases o <;> first | exact .ok _ | exact .error rfl
  have hread : Admitted (readPassword prompts confirm) := by
    refine (hprompt _).bind fun first _ => ?_
    split
    · refine (hprompt _).bind fun repeated _ => ?_
      split
      · exact .error rfl
      · exact .ok _
    · exact .ok _
  unfold Cipher.new
  split
  · split
    · refine hread.bind fun password _ => ?_
      split
      · exact .ok _
      · exact .error rfl
    · exact .error rfl
  · exact .ok _

/-- Reading the index never says that something is too large. -/
theorem admitted_retrieveIndex (f : Bytes) (p : Path) (h : Header) (footer : Footer) (c : Cipher) :
    Admitted (retrieveIndex K f p h footer c) := by
  unfold retrieveIndex
  refine (Admitted.ioFailed p _).bind fun _ _ => (Admitted.ioFailed p _).bind fun stored _ => ?_
  rw [openStored_eq]
  refine (admitted_decryptBlock _ _ _ _ _).bind fun opened _ => Admitted.bind ?_ fun indexBytes _ => .elim rfl
  unfold unpackIndex
  split
  · exact (admitted_newEngine _).bind fun engine _ => admitted_decompress _ _ _
  · exact .ok _

/-- With an accepted header the sizes in the footer decide. -/
theorem admitted_retrieve_iff {f : Bytes} {p : Path} {limits : Limits} {prompts : Prompts} {confirm : Bool} {h : Header}
    (hheader : retrieveHeader K f p limits = .ok h) :
    Admitted (retrieve K f p limits prompts confirm) ↔ Admitted (retrieveFooter f p limits) := by
  unfold retrieve
  rw [hheader, Except.ok_bind]
  constructor
  · intro hall e he
    exact hall e (by rw [he]; rfl)
  · intro hfooter
    refine hfooter.bind fun footer _ => (admitted_newCipher prompts h confirm).bind fun cipher _ => ?_
    exact (admitted_retrieveIndex f p h footer cipher).bind fun index _ => .ok _

/-- What the footer at the end of a file says of the index. -/
theorem admitted_footer_iff (front : Bytes) {footer : Footer} (hstored : footer.indexSizeStored < 2 ^ 32)
    (hplain : footer.indexSizePlain < 2 ^ 32) (p : Path) (limits : Limits) :
    Admitted (retrieveFooter (front ++ footer.serialize) p limits) ↔
      footer.indexSizeStored ≤ limits.effMaxIndex ∧ footer.indexSizePlain ≤ limits.effMaxIndex := by
  have hfits : Footer.Fits { footer with indexOffset := footer.indexOffset % 2 ^ 64 } :=
    ⟨Nat.mod_lt _ (by decide), hstored, hplain⟩
  rw [← footer.serialize_mod, retrieveFooter_end_eq front hfits]
  dsimp only
  constructor
  · intro hall
    have h1 : ¬ footer.indexSizeStored > limits.effMaxIndex := fun h => by
      have := hall _ (by rw [failIf, if_pos h]; rfl)
      cases this
    refine ⟨Nat.not_lt.1 h1, Nat.not_lt.1 fun h => ?_⟩
    have := hall _ (by rw [failIf_neg h1, failIf, if_pos h]; rfl)
    cases this
  · rintro ⟨h1, h2⟩
    rw [failIf_neg (Nat.not_lt.2 h1), failIf_neg (Nat.not_lt.2 h2)]
    exact .ok _

/-! ## The front of the file -/

/-- A run leaves what stood before the position of the writer. -/
theorem Run.front {draws : Draws} {arch arch' : ArchiveWriter} {old : List FileEntry} {pos bs : Nat}
    {srcs : List Source} {processed : List ProcessedBlock} (hfile : arch.filePosition = arch.writer.pos)
    (hinside : arch.writer.pos ≤ arch.writer.bytes.length)
    (hrun : Run K draws arch old pos bs srcs processed arch') :
    arch'.writer.bytes.take arch.writer.pos = arch.writer.bytes.take arch.writer.pos := by
  obtain ⟨mid, hblocks, hfinal⟩ := hrun.written
  have happ := writeBlocks_ok hblocks
  have hwrote := happ.wrote hinside
  have hmid := hwrote.inside hinside
  obtain ⟨sealedIndex, footer, w, _, rfl, _, hbytes⟩ := finalize_ok hfinal
  have hle : arch.writer.pos ≤ mid.writer.pos := by rw [hwrote.pos]; omega
  have hend := length_overwrite_ge mid.writer.pos (sealedIndex ++ footer.serialize) mid.writer.bytes hmid
  show w.bytes.take _ = _
  rw [hbytes hmid, take_setLen (by rw [happ.filePosition, hfile]; omega) (by omega), take_overwrite_le hle hmid,
    hwrote.bytes, take_overwrite hinside]

/-- The memory cost of a profile is within the default limit. -/
theorem profile_cost (profile : ParamsProfile) : profile.params.1 ≤ Limits.default.effMaxM := by
  cases profile <;> decide

/-- What a compression writes starts with its header. -/
theorem initializeCompression_front {setup : Setup} {env : Env} {args : CompressArgs} {arch : ArchiveWriter}
    (h : initializeCompression K setup env args = .ok arch) :
    ∃ headerBytes rest, K.headerToVec (args.header setup) = some headerBytes ∧
      arch.writer.bytes = leBytes 4 (u32 headerBytes.length) ++ headerBytes ++ rest := by
  obtain ⟨_, _, _, _, new, _, _, _, _, hnew, _, hrun⟩ := initializeCompression_ok h
  obtain ⟨headerBytes, hvec, _, _, _, hfile, hpos, hbytes⟩ := ArchiveWriter.new_ok hnew
  have hfront := hrun.front hfile (Nat.le_of_eq hpos)
  rw [hpos, List.take_length, hbytes] at hfront
  exact ⟨headerBytes, _, hvec, by rw [← hfront, List.take_append_drop]⟩

theorem initializeCompression_header {setup : Setup} {env : Env} {args : CompressArgs} {arch : ArchiveWriter}
    (h : initializeCompression K setup env args = .ok arch) : arch.header = args.header setup := by
  obtain ⟨_, _, _, _, new, _, _, _, _, hnew, _, hrun⟩ := initializeCompression_ok h
  obtain ⟨_, _, _, hheader, _⟩ := ArchiveWriter.new_ok hnew
  exact hrun.same.1.trans hheader

/-- **When the produced archive is admitted** under the default limits: the block size and the sizes that the footer
records of the index are within them. -/
theorem compressed_admitted_iff (hK : K.Lawful) {setup : Setup} {env : Env} {args : CompressArgs} {arch : ArchiveWriter}
    (h : initializeCompression K setup env args = .ok arch)
    (hheader : ∀ b, K.headerToVec (args.header setup) = some b → b.length ≤ MAX_HEADER_SIZE) (p : Path)
    (prompts : Prompts) (confirm : Bool) :
    Admitted (retrieve K arch.writer.bytes p Limits.default prompts confirm) ↔
      args.bs ≤ MAX_BLOCK_SIZE ∧ u32 arch.indexSize ≤ MAX_INDEX_SIZE ∧
        ∀ ib, K.indexToVec arch.index = some ib → u32 ib.length ≤ MAX_INDEX_SIZE := by
  obtain ⟨headerBytes, rest, hvec, hfront⟩ := initializeCompression_front h
  have hsize := hheader headerBytes hvec
  have hfits : headerBytes.length < 2 ^ 32 := Nat.lt_of_le_of_lt hsize (by decide)
  have hread := retrieveHeader_front hK hvec rfl rfl (show _ ≤ Limits.default.effMaxHeader from hsize) hfits rest p
  rw [← hfront] at hread
  by_cases hbs : args.bs ≤ MAX_BLOCK_SIZE
  · have hblock : ¬ (args.header setup).blockSize > Limits.default.effMaxBlock := Nat.not_lt.2 hbs
    have hcost : ¬ (args.header setup).argonParams.1 > Limits.default.effMaxM :=
      Nat.not_lt.2 (profile_cost args.encryptionParams)
    rw [failIf_neg hblock, failIf_neg hcost] at hread
    have hsmall : arch.header.blockSize + 16 < 2 ^ 32 := by
      rw [initializeCompression_header h]
      exact Nat.lt_of_le_of_lt (Nat.add_le_add_right hbs 16) (by decide)
    obtain ⟨im, _, _, _, _, _, hfin, _⟩ := initializeCompression_finished hK h (.inl hsmall)
    obtain ⟨writer, nonce, _, _, hindex, _, hseal⟩ := im.sealedBy
    obtain ⟨_, hstored, ib, hib, hplain⟩ := footer_of_sealIndex hseal
    have hindexSize := hfin.indexSize
    rw [admitted_retrieve_iff hread, hfin.bytes, Image.bytes,
      admitted_footer_iff _ (hstored ▸ u32_lt _) (hplain ▸ u32_lt _), hstored, hplain, hindexSize]
    rw [hindex, ← hfin.index] at hib
    constructor
    · rintro ⟨h1, h2⟩
      refine ⟨hbs, h1, fun ib' hib' => ?_⟩
      cases hib.symm.trans hib'
      exact h2
    · rintro ⟨_, h1, h2⟩
      exact ⟨h1, h2 ib hib⟩
  · have hblock : (args.header setup).blockSize > Limits.default.effMaxBlock := Nat.not_le.1 hbs
    have hreject : retrieve K arch.writer.bytes p Limits.default prompts confirm
        = .error (.blockTooLarge args.bs MAX_BLOCK_SIZE) := by
      unfold retrieve
      rw [hread, failIf, if_pos hblock]
      rfl
    refine ⟨fun hall => ?_, fun hwithin => absurd hwithin.1 hbs⟩
    cases hall _ hreject

/-- Three bytes in blocks of two are admitted. -/
theorem compressed_admitted_small :
    let K := Crates.tabled [Header.stored 2] [indexOfA]
    let a : Path := [.normal "src", .normal "a"]
    ∃ arch, initializeCompression K (Setup.plain [a]) (Env.plain (Os.ofFiles [(a, 3, [1, 2, 3])]))
        (CompressArgs.plain 2) = .ok arch ∧
      Admitted (retrieve K arch.writer.bytes [] Limits.default ⟨none, none⟩ false) := by
  intro K a
  obtain ⟨arch, hmade, hshown⟩ := Except.exists_of_toOption_map (f := fun arch => (arch.index, arch.indexSize))
    (x := initializeCompression K (Setup.plain [a]) (Env.plain (Os.ofFiles [(a, 3, [1, 2, 3])])) (CompressArgs.plain 2))
    (b := (indexOfA, 0)) (by decide +kernel)
  obtain ⟨hindex, hsize⟩ := Prod.mk.inj hshown
  refine ⟨arch, hmade, (compressed_admitted_iff (Crates.tabled_lawful _ _) hmade (fun b hb => ?_) [] _ _).2
    ⟨by decide, by rw [hsize]; decide, fun ib hib => ?_⟩⟩
  · cases (show K.headerToVec _ = some [] by decide +kernel).symm.trans hb
    decide
  · rw [hindex] at hib
    cases (show K.indexToVec indexOfA = some [] by decide +kernel).symm.trans hib
    decide

/-- **A compression with blocks of more than 256 MiB succeeds**, and its archive is rejected. -/
theorem large_blocks_rejected :
    let bs := MAX_BLOCK_SIZE + 1
    let K := Crates.tabled [Header.stored bs] [⟨[], [], 0⟩]
    ∃ arch, initializeCompression K (Setup.plain []) (Env.plain (Os.ofFiles [])) (CompressArgs.plain bs) = .ok arch ∧
      retrieve K arch.writer.bytes [] Limits.default ⟨none, none⟩ false =
        .error (.blockTooLarge bs MAX_BLOCK_SIZE) := by
  intro bs K
  obtain ⟨arch, hmade, hbytes⟩ := Except.exists_of_toOption_map (f := fun arch => arch.writer.bytes)
    (x := initializeCompression K (Setup.plain []) (Env.plain (Os.ofFiles [])) (CompressArgs.plain bs))
    (b := [0, 0, 0, 0] ++ Footer.serialize ⟨4, 0, 0, false, Vector.replicate 12 0⟩) (by decide +kernel)
  have hheader : retrieveHeader K arch.writer.bytes [] Limits.default = .error (.blockTooLarge bs MAX_BLOCK_SIZE) := by
    rw [hbytes]
    decide +kernel
  refine ⟨arch, hmade, ?_⟩
  unfold retrieve
  rw [hheader]
  rfl

end Cryo
