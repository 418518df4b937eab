import Cryo.AppendRun
import Cryo.Extractable

/-!
# From a compression through any appends

An archive over its whole life on the disk: a call of `initialize_compression` that has returned `Ok` after some schedule
of its threads, and then calls of `append_file`, one after the other, each in a schedule of its own, each successful,
failed or killed at any moment.

* `call_outcome`: one call does what `appendFile` does if it has returned `Ok`, and otherwise nothing.
* `runCallsOn_rule`: what the successful calls keep, holds after any calls.
* `session_verifies`: after any calls the archive opens, passes `verify`, and has all its entries.
-/

namespace Cryo

open Posix Chunk

variable {K : Crates}

/-! ## One call -/

variable (K) in
/-- `arch'` is `arch` with entries, blocks and raw blocks behind its own. -/
structure Grown (arch arch' : ArchiveWriter) : Prop where
  header : arch'.header = arch.header
  cipher : arch'.cipher = arch.cipher
  files : arch.index.files <+: arch'.index.files
  block : arch.index.block <+: arch'.index.block
  stream : ∀ (im : Image K) raws, Finished arch im raws → ∃ (im' : Image K) (more : List Bytes),
    Finished arch' im' (raws ++ more)

theorem Grown.refl (arch : ArchiveWriter) : Grown K arch arch :=
  ⟨rfl, rfl, List.prefix_refl _, List.prefix_refl _, fun im raws hf => ⟨im, [], by rwa [List.append_nil]⟩⟩

theorem Grown.trans {arch arch' arch'' : ArchiveWriter} (h : Grown K arch arch') (h' : Grown K arch' arch'') :
    Grown K arch arch'' where
  header := h'.header.trans h.header
  cipher := h'.cipher.trans h.cipher
  files := h.files.trans h'.files
  block := h.block.trans h'.block
  stream im raws hf := by
    obtain ⟨im', more, hf'⟩ := h.stream im raws hf
    obtain ⟨im'', more', hf''⟩ := h'.stream im' _ hf'
    exact ⟨im'', more ++ more', by rwa [List.append_assoc] at hf''⟩

/-- An append that succeeds adds entries and blocks. -/
theorem Chain.grown (hK : K.Lawful) {arch arch' : ArchiveWriter} (h : Chain K arch) (hfits : Unnarrowed K arch)
    {setup : AppendSetup} {env : Env} {args : AppendArgs}
    (hkey : Cipher.new K setup.prompts arch.header args.confirm = .ok arch.cipher)
    (happ : appendFile K setup env arch.writer.bytes args = .ok arch') : Grown K arch arch' := by
  have hfinished : ∀ (im : Image K) raws, Finished arch im raws → ∃ (im' : Image K) (srcs : List Source)
      (processed : List ProcessedBlock),
      Finished arch' im' (raws ++ chunks arch.header.blockSize (Source.stream srcs)) ∧
      arch'.header = arch.header ∧ arch'.cipher = arch.cipher ∧
      arch'.index.files = arch.index.files ++ Source.entries arch.index.totalStreamSize srcs ∧
      arch'.index.block = arch.index.block ++ blockEntries arch.filePosition processed := by
    intro im raws hf
    obtain ⟨_, _, _, _, _, hload, _⟩ := appendFile_ok happ
    obtain ⟨im', _, _, srcs, processed, _, _, hf', _, _, hheader, hcipher, hfiles, hblock⟩ :=
      appendFile_finished hK hf (hf.sizes_of_retrieve hK hfits hload) hkey happ
    exact ⟨im', srcs, processed, hf', hheader, hcipher, hfiles, hblock⟩
  obtain ⟨im, raws, hf, _⟩ := h.keeps hK
  obtain ⟨_, _, _, _, hheader, hcipher, hfiles, hblock⟩ := hfinished im raws hf
  refine ⟨hheader, hcipher, hfiles ▸ List.prefix_append _ _, hblock ▸ List.prefix_append _ _, fun im raws hf => ?_⟩
  obtain ⟨im', _, _, hf', _⟩ := hfinished im raws hf
  exact ⟨im', _, hf'⟩

/-- The archive stands on the disk, and the name of its copy is no link and no other name of its file. -/
structure Stands (archive copy : Loc) (d : Disk) (arch : ArchiveWriter) : Prop where
  read : d.read archive = some arch.writer.bytes
  link : ∀ t, d.entry copy ≠ some (.link t)
  noAlias : ∀ o, d.entry copy = some (.file o) → d.opens archive ≠ some o

section

variable {task : AppendTask} {d₀ d : Disk} {c : AppendCall}

/-- Where a call is, the name of the copy is no link and no other name of the archive's file. -/
theorem AppendCall.Inv.copy_apart {left : Prop} (h : AppendCall.Inv task d₀ left d c)
    (hlink : ∀ t, d₀.entry task.copy ≠ some (.link t))
    (halias : ∀ o, d₀.entry task.copy = some (.file o) → d₀.opens task.archive ≠ some o) :
    (∀ t, d.entry task.copy ≠ some (.link t)) ∧
      ∀ o, d.entry task.copy = some (.file o) → d.opens task.archive ≠ some o := by
  have hnone : d.entry task.copy = none → (∀ t, d.entry task.copy ≠ some (.link t)) ∧
      ∀ o, d.entry task.copy = some (.file o) → d.opens task.archive ≠ some o := fun hnone => by simp [hnone]
  have hstanding : ∀ {src o : Nat}, Working task d₀ d c src o → d.entry task.copy = some (.file o) →
      (∀ t, d.entry task.copy ≠ some (.link t)) ∧
        ∀ o, d.entry task.copy = some (.file o) → d.opens task.archive ≠ some o := by
    intro src o h hstands
    refine ⟨by simp [hstands], fun o' ho' hopens => ?_⟩
    rw [hstands] at ho'
    rw [h.opens] at hopens
    cases ho'
    cases hopens
    exact h.ne rfl
  obtain ⟨stage, tmp, threads⟩ := c
  cases stage with
  | start | copy =>
    obtain ⟨rfl, _⟩ := h
    exact ⟨hlink, halias⟩
  | copying => exact hstanding h.1.toWorking h.1.stands
  | openArchive =>
    obtain ⟨_, h⟩ := h
    exact hstanding h.toWorking h.stands
  | load => exact hstanding (Standing.toWorking h) (Standing.stands h)
  | openTmp | scan | read | rename | cleanup | panicked =>
    obtain ⟨_, _, h⟩ := h
    exact hstanding h.toWorking h.stands
  | returned result =>
    cases result with
    | ok _ =>
      obtain ⟨_, _, _, hcopy, _⟩ := h
      exact hnone hcopy
    | error e =>
      rcases h with ⟨rfl, _⟩ | ⟨_, _, h, hcopy | ⟨_, hstands, _⟩⟩
      · exact ⟨hlink, halias⟩
      · exact hnone hcopy
      · exact hstanding h hstands

/-- **What one call does**: if it has returned `Ok`, what `appendFile` does to the archive, and otherwise nothing. -/
theorem call_outcome {moves : List AppendMove} {arch : ArchiveWriter}
    (hstands : Stands task.archive task.copy d₀ arch) (hrun : task.run K moves d₀ .start = some (d, c)) :
    (c.stage = .returned (.ok ()) → ∃ draws arch',
      (∀ delivery, appendFile K task.setup ⟨task.env.os, draws, delivery⟩ arch.writer.bytes task.args = .ok arch') ∧
      Stands task.archive task.copy d arch') ∧
    (c.stage ≠ .returned (.ok ()) → Stands task.archive task.copy d arch) := by
  obtain ⟨hinv, hfaithful⟩ := faithful_run hstands.link hstands.noAlias (inv_start task d₀ True) trivial hrun
  obtain ⟨hlink, halias⟩ := hinv.copy_apart hstands.link hstands.noAlias
  refine ⟨fun hreturned => ?_, fun hreturned => ⟨?_, hlink, halias⟩⟩
  · obtain ⟨arch', ⟨bytes, draws, hread, _, happ⟩, hread'⟩ : ∃ arch', task.Appends K d₀ arch' ∧
        d.read task.archive = some arch'.writer.bytes := by
      unfold AppendCall.Inv at hinv
      unfold AppendCall.Faithful at hfaithful
      rw [hreturned] at hinv hfaithful
      exact hfaithful.left hinv
    rw [hstands.read] at hread
    cases hread
    exact ⟨draws, arch', happ, hread', hlink, halias⟩
  · rw [← hstands.read]
    exact hinv.read_archive hstands.noAlias hreturned

end

/-! ## Many calls -/

variable (K) in
/-- Calls one after the other, each brought as far as its moves go. The threads of a call that is killed are gone, and
what it has made of the disk stays. -/
def runCalls : List (AppendTask × List AppendMove) → Disk → Option Disk
  | [], d => some d
  | (task, moves) :: calls, d => (task.run K moves d .start).bind fun r => runCalls calls r.1

section

variable {σ : Type} (effect : AppendTask → AppendCall → σ → σ)

variable (K) in
/-- The same beside a state that each call changes as it ends. -/
def runCallsOn : List (AppendTask × List AppendMove) → Disk → σ → Option (Disk × σ)
  | [], d, x => some (d, x)
  | (task, moves) :: calls, d, x =>
    (task.run K moves d .start).bind fun r => runCallsOn calls r.1 (effect task r.2 x)

theorem runCallsOn_eq : ∀ (calls : List (AppendTask × List AppendMove)) (d : Disk) (x : σ),
    (runCallsOn K effect calls d x).map Prod.fst = runCalls K calls d
  | [], _, _ => rfl
  | (task, moves) :: calls, d, x => by
    unfold runCallsOn runCalls
    rw [Option.map_bind]
    refine Option.bind_congr fun r _ => ?_
    exact runCallsOn_eq calls r.1 _

variable {effect}

/-- **Any calls, one by one**: what the successful ones keep, and the others do not touch, holds in the end. -/
theorem runCallsOn_rule (hK : K.Lawful) {archive copy : Loc} {I : ArchiveWriter → σ → Prop}
    (hok : ∀ {task : AppendTask} {c : AppendCall} {draws : Draws} {arch arch' : ArchiveWriter} {x : σ}, Chain K arch →
      I arch x → Unnarrowed K arch → Unnarrowed K arch' →
      Cipher.new K task.setup.prompts arch.header task.args.confirm = .ok arch.cipher → task.env.os.Still →
      c.stage = .returned (.ok ()) →
      appendFile K task.setup ⟨task.env.os, draws, .sequential⟩ arch.writer.bytes task.args = .ok arch' →
      I arch' (effect task c x))
    (hother : ∀ {task : AppendTask} {c : AppendCall} {arch : ArchiveWriter} {x : σ}, I arch x →
      c.stage ≠ .returned (.ok ()) → I arch (effect task c x)) :
    ∀ {calls : List (AppendTask × List AppendMove)} {d d' : Disk} {arch : ArchiveWriter} {x x' : σ}, Chain K arch →
    I arch x → Stands archive copy d arch →
    (∀ call ∈ calls, call.1.archive = archive ∧ call.1.copy = copy ∧ call.1.env.os.Still ∧
      Cipher.new K call.1.setup.prompts arch.header call.1.args.confirm = .ok arch.cipher) →
    (∀ pre d₁ a, pre <+: calls → runCalls K pre d = some d₁ → Chain K a → d₁.read archive = some a.writer.bytes →
      Unnarrowed K a) →
    runCallsOn K effect calls d x = some (d', x') →
    ∃ arch', Chain K arch' ∧ I arch' x' ∧ Stands archive copy d' arch' ∧ Grown K arch arch'
  | [], d, d', arch, x, x', hchain, hI, hstands, _, _, hrun => by
    cases hrun
    exact ⟨arch, hchain, hI, hstands, .refl arch⟩
  | (task, moves) :: calls, d, d', arch, x, x', hchain, hI, hstands, hcalls, hfits, hrun => by
    obtain ⟨⟨d₁, c⟩, hcall, hrun⟩ := Option.bind_eq_some_iff.1 hrun
    obtain ⟨rfl, rfl, hstill, hkey⟩ := hcalls _ List.mem_cons_self
    have hnow : Unnarrowed K arch := hfits [] d arch List.nil_prefix rfl hchain hstands.read
    have hfits₁ : ∀ pre d₂ a, pre <+: calls → runCalls K pre d₁ = some d₂ → Chain K a →
        d₂.read task.archive = some a.writer.bytes → Unnarrowed K a := fun pre d₂ a hpre hpreRun =>
      hfits ((task, moves) :: pre) d₂ a ((List.cons_prefix_cons).2 ⟨rfl, hpre⟩)
        (Option.bind_eq_some_iff.2 ⟨(d₁, c), hcall, hpreRun⟩)
    -- the archive after this call, and what holds of it
    obtain ⟨arch₁, hchain₁, hI₁, hstands₁, hgrown⟩ : ∃ arch₁, Chain K arch₁ ∧ I arch₁ (effect task c x) ∧
        Stands task.archive task.copy d₁ arch₁ ∧ Grown K arch arch₁ := by
      obtain ⟨hdone, hundone⟩ := call_outcome hstands hcall
      by_cases hreturned : c.stage = .returned (.ok ())
      · obtain ⟨draws, arch₁, happ, hstands₁⟩ := hdone hreturned
        have hstill' : (⟨task.env.os, draws, .sequential⟩ : Env).os.Still := hstill
        have hchain₁ : Chain K arch₁ := .append hchain hnow hkey hstill' (happ .sequential)
        have hfine : Unnarrowed K arch₁ := hfits₁ [] d₁ arch₁ List.nil_prefix rfl hchain₁ hstands₁.read
        exact ⟨arch₁, hchain₁, hok hchain hI hnow hfine hkey hstill hreturned (happ .sequential), hstands₁,
          hchain.grown hK hnow hkey (happ .sequential)⟩
      · exact ⟨arch, hchain, hother hI hreturned, hundone hreturned, .refl arch⟩
    have hcalls₁ : ∀ call ∈ calls, call.1.archive = task.archive ∧ call.1.copy = task.copy ∧ call.1.env.os.Still ∧
        Cipher.new K call.1.setup.prompts arch₁.header call.1.args.confirm = .ok arch₁.cipher := by
      intro call hmem
      rw [hgrown.header, hgrown.cipher]
      exact hcalls call (List.mem_cons_of_mem _ hmem)
    obtain ⟨arch', hchain', hI', hstands', hgrown'⟩ :=
      runCallsOn_rule hK hok hother hchain₁ hI₁ hstands₁ hcalls₁ hfits₁ hrun
    exact ⟨arch', hchain', hI', hstands', hgrown.trans hgrown'⟩

end

/-- **Any calls** leave a history of `appendFile` under the archive's name. -/
theorem runCalls_keeps (hK : K.Lawful) {archive copy : Loc} {calls : List (AppendTask × List AppendMove)}
    {d d' : Disk} {arch : ArchiveWriter} (hchain : Chain K arch) (hstands : Stands archive copy d arch)
    (hcalls : ∀ call ∈ calls, call.1.archive = archive ∧ call.1.copy = copy ∧ call.1.env.os.Still ∧
      Cipher.new K call.1.setup.prompts arch.header call.1.args.confirm = .ok arch.cipher)
    (hfits : ∀ pre d₁ a, pre <+: calls → runCalls K pre d = some d₁ → Chain K a →
      d₁.read archive = some a.writer.bytes → Unnarrowed K a)
    (hrun : runCalls K calls d = some d') :
    ∃ arch', Chain K arch' ∧ Stands archive copy d' arch' ∧ Grown K arch arch' := by
  rw [← runCallsOn_eq (fun _ _ (x : Unit) => x) calls d ()] at hrun
  obtain ⟨⟨_, x⟩, hon, rfl⟩ := Option.map_eq_some_iff.1 hrun
  obtain ⟨arch', hchain', _, hstands', hgrown⟩ := runCallsOn_rule hK (I := fun _ _ => True)
    (fun _ _ _ _ _ _ _ _ => trivial) (fun _ _ => trivial) hchain trivial hstands hcalls hfits hon
  exact ⟨arch', hchain', hstands', hgrown⟩

/-- The blocks of a history, which are short. -/
theorem Chain.finished (hK : K.Lawful) {arch : ArchiveWriter} (h : Chain K arch) :
    ∃ (im : Image K) (raws : List Bytes), Finished arch im raws ∧
      DecompressingEngine.new K arch.header.compression = .ok ⟨arch.header.compression⟩ ∧
      arch.header.blockSize + 16 < 2 ^ 32 := by
  obtain ⟨hmade, _, hmax⟩ := h.made hK
  have hsmall : arch.header.blockSize + 16 < 2 ^ 32 := Nat.lt_of_le_of_lt (Nat.add_le_add_right hmax 16) (by decide)
  obtain ⟨im, raws, hf, hengine⟩ := hmade.finished hK (.inl hsmall)
  exact ⟨im, raws, hf, hengine, hsmall⟩

/-- **Every archive of a history opens and passes `verify`**, within the limits and with its password. -/
theorem Chain.verifies (hK : K.Lawful) {arch : ArchiveWriter} (h : Chain K arch) {limits : Limits}
    (hs : Sizes K limits arch) {prompts : Prompts} {confirm : Bool}
    (hkey : Cipher.new K prompts arch.header confirm = .ok arch.cipher) (p out : Path) :
    ArchiveReader.new K arch.writer.bytes p out limits prompts confirm = .ok (arch.reader p out limits) ∧
      (arch.reader p out limits).verify K p = .ok () := by
  obtain ⟨im, raws, hf, hengine, hsmall⟩ := h.finished hK
  have hlt := hf.blocks_small hsmall
  refine ⟨hf.new_reader hK hs hkey p out, (ArchiveReader.verify_ok hengine).2 fun i block hi => ?_⟩
  obtain ⟨plain, hread, hsum⟩ := hf.readable hs.offset hlt p out limits i block hi
  exact ⟨plain, (ArchiveReader.readBlock_ok.1 hread).1, hsum⟩

/-- **What an archive has grown from decodes as before.** -/
theorem Grown.decodes (hK : K.Lawful) {arch arch' : ArchiveWriter} (hgrown : Grown K arch arch') (h : Chain K arch)
    (hoff : arch.filePosition < 2 ^ 63) (hoff' : arch'.filePosition < 2 ^ 63) {e : FileEntry}
    (he : e ∈ arch.index.files) (p out : Path) (limits : Limits) : ∃ plain,
      (arch.reader p out limits).decodeEntry K e = .ok plain ∧
      (arch'.reader p out limits).decodeEntry K e = .ok plain := by
  obtain ⟨im, raws, hf, hengine, hsmall⟩ := h.finished hK
  obtain ⟨im', more, hf'⟩ := hgrown.stream im raws hf
  obtain ⟨_, hinside⟩ := (h.made hK).1.inside hK (.inl hsmall)
  refine ⟨_, hf.decodeEntry hsmall hoff hengine p out limits e, ?_⟩
  rw [hf'.decodeEntry (hgrown.header ▸ hsmall) hoff' (hgrown.header ▸ hengine) p out limits e, List.flatten_append,
    Bytes.slice_append_left (hf.total ▸ hinside e he)]

/-- What a compression made, its password opens. -/
theorem initializeCompression_key {setup : Setup} {env : Env} {args : CompressArgs} {arch : ArchiveWriter}
    (h : initializeCompression K setup env args = .ok arch) : arch.header = args.header setup ∧
      Cipher.new K setup.prompts (args.header setup) args.confirm = .ok arch.cipher := by
  obtain ⟨_, _, _, _, arch₀, _, _, _, _, hnew, _, hrun⟩ := initializeCompression_ok h
  obtain ⟨_, _, hcipher, hheader, _⟩ := ArchiveWriter.new_ok hnew
  exact ⟨hrun.same.1.trans hheader, hrun.same.2 ▸ hcipher⟩

/-- **A compression that has returned `Ok`** has started a history, which its password opens. -/
theorem chain_of_returns {setup : Setup} {os : Os} {indexNonce : Nonce} {args : CompressArgs} {headerBytes : Bytes}
    {path : Option Bytes} (hreturned : Returns K setup os indexNonce args none (.ok ()) path)
    (hheader : K.headerToVec (args.header setup) = some headerBytes)
    (hbuffer : ∀ faults, setup.createNew (archiveFilename args.archiveName) = some faults → faults 0 = none)
    (hone : 1 ≤ args.bs) (hmax : args.bs ≤ MAX_BLOCK_SIZE) (hstill : os.Still) (hscans : setup.Scans) :
    ∃ draws arch, (∀ delivery, initializeCompression K setup ⟨os, draws, delivery⟩ args = .ok arch) ∧
      path = some arch.writer.bytes ∧ Chain K arch ∧ arch.header = args.header setup ∧
      Cipher.new K setup.prompts (args.header setup) args.confirm = .ok arch.cipher := by
  obtain ⟨draws, arch, hpath, hmade⟩ := hreturned.initializeCompression hheader hbuffer
  have hstill' : (⟨os, draws, .sequential⟩ : Env).os.Still := hstill
  exact ⟨draws, arch, hmade, hpath, .compress hone hmax hstill' hscans (hmade .sequential),
    initializeCompression_key (hmade .sequential)⟩

/-- **An archive over its whole life.** A compression has returned `Ok`, in any schedule; then any number of appends to
the archive are called, with the same password, on files that do not change, each in any schedule, and each successful,
failed or killed at any moment. As long as no length outgrew its field, the archive then opens with the password and
passes `verify`, it has the old entries before all others, and these decode to what they decoded to. -/
theorem session_verifies (hK : K.Lawful) {setup : Setup} {os : Os} {indexNonce : Nonce} {args : CompressArgs}
    {headerBytes : Bytes} {archive copy : Loc} {d d' : Disk} {calls : List (AppendTask × List AppendMove)}
    (hheader : K.headerToVec (args.header setup) = some headerBytes)
    (hbuffer : ∀ faults, setup.createNew (archiveFilename args.archiveName) = some faults → faults 0 = none)
    (hone : 1 ≤ args.bs) (hmax : args.bs ≤ MAX_BLOCK_SIZE) (hstill : os.Still) (hscans : setup.Scans)
    (hreturned : Returns K setup os indexNonce args none (.ok ()) (d.read archive))
    (hlink : ∀ t, d.entry copy ≠ some (.link t))
    (halias : ∀ o, d.entry copy = some (.file o) → d.opens archive ≠ some o)
    (hcalls : ∀ call ∈ calls, call.1.archive = archive ∧ call.1.copy = copy ∧ call.1.env.os.Still ∧
      Cipher.new K call.1.setup.prompts (args.header setup) call.1.args.confirm =
        Cipher.new K setup.prompts (args.header setup) args.confirm)
    (hfits : ∀ pre d₁ a, pre <+: calls → runCalls K pre d = some d₁ → Chain K a →
      d₁.read archive = some a.writer.bytes → Unnarrowed K a)
    (hrun : runCalls K calls d = some d') :
    ∃ draws arch arch', (∀ delivery, initializeCompression K setup ⟨os, draws, delivery⟩ args = .ok arch) ∧
      d.read archive = some arch.writer.bytes ∧ d'.read archive = some arch'.writer.bytes ∧
      arch.index.files <+: arch'.index.files ∧ ∀ limits, Sizes K limits arch' → ∀ p out,
        ArchiveReader.new K arch'.writer.bytes p out limits setup.prompts args.confirm =
          .ok (arch'.reader p out limits) ∧
        (arch'.reader p out limits).verify K p = .ok () ∧
        ∀ e ∈ arch.index.files, ∃ plain, (arch.reader p out limits).decodeEntry K e = .ok plain ∧
          (arch'.reader p out limits).decodeEntry K e = .ok plain := by
  obtain ⟨draws, arch, hmade, hread, hchain, hsame, hkey⟩ :=
    chain_of_returns hreturned hheader hbuffer hone hmax hstill hscans
  have hkeys : ∀ call ∈ calls, call.1.archive = archive ∧ call.1.copy = copy ∧ call.1.env.os.Still ∧
      Cipher.new K call.1.setup.prompts arch.header call.1.args.confirm = .ok arch.cipher := by
    intro call hmem
    obtain ⟨harchive, hcopy, hos, hcipher⟩ := hcalls call hmem
    exact ⟨harchive, hcopy, hos, by rw [hsame, hcipher, hkey]⟩
  obtain ⟨arch', hchain', hstands', hgrown⟩ :=
    runCalls_keeps hK hchain ⟨hread, hlink, halias⟩ hkeys hfits hrun
  have hoff := (hfits [] d arch List.nil_prefix rfl hchain hread).offset
  refine ⟨draws, arch, arch', hmade, hread, hstands'.read, hgrown.files, fun limits hs p out => ?_⟩
  obtain ⟨hnew, hverify⟩ := hchain'.verifies hK hs (by rw [hgrown.header, hgrown.cipher, hsame]; exact hkey) p out
  exact ⟨hnew, hverify, fun e he => hgrown.decodes hK hchain hoff hs.offset he p out limits⟩

/-! ## A small life -/

/-- Short archives are not narrowed. -/
theorem Chain.unnarrowed (hK : K.Lawful) {arch : ArchiveWriter} (h : Chain K arch)
    (hheader : ∀ b, K.headerToVec arch.header = some b → b.length < 2 ^ 32)
    (hindex : ∀ b, K.indexToVec arch.index = some b → b.length < 2 ^ 32)
    (hlength : arch.writer.bytes.length < 2 ^ 32) : Unnarrowed K arch := by
  obtain ⟨im, raws, hf, _⟩ := h.finished hK
  refine ⟨hheader, hindex, ?_, ?_⟩
  · unfold ArchiveWriter.indexSize
    omega
  · rw [hf.bytes, Image.bytes, List.length_append, List.length_append, List.length_append, Image.length_lead] at hlength
    rw [hf.filePosition]
    omega

/-- A table gives short names. -/
theorem Crates.tabled_short {headers : List Header} {indexes : List Index} (hheaders : headers.length < 2 ^ 32)
    (hindexes : indexes.length < 2 ^ 32) :
    (∀ h b, (tabled headers indexes).headerToVec h = some b → b.length < 2 ^ 32) ∧
      ∀ x b, (tabled headers indexes).indexToVec x = some b → b.length < 2 ^ 32 :=
  ⟨fun _ _ hb => ((List.getElem?_eq_some_iff.1 (getElem?_of_findIdx? hb)).1).trans hheaders,
    fun _ _ hb => ((List.getElem?_eq_some_iff.1 (getElem?_of_findIdx? hb)).1).trans hindexes⟩

/-- Two calls on `a.cryo`, the first of which is killed while it writes the copy. -/
def twoCalls : List (AppendTask × List AppendMove) :=
  [(AppendTask.two, appending.take 18), (AppendTask.two, appending)]

/-- The compression of `src/a` before them, and that all archives on the way are short. -/
theorem twoCalls_ready :
    let K := Crates.tabled [Header.stored 2] [indexOfA, indexOfAB]
    let d := Disk.ofFiles [(["a.cryo"], storedA)]
    Returns K Setup.single (Os.ofFiles [([.normal "src", .normal "a"], 3, [1, 2, 3])]) (Vector.replicate 12 0)
      { CompressArgs.single with bs := 2 } none (.ok ()) (d.read ["a.cryo"]) ∧
    d.entry AppendTask.two.copy = none ∧
    ∀ pre d₁ a, pre <+: twoCalls → runCalls K pre d = some d₁ → Chain K a →
      d₁.read ["a.cryo"] = some a.writer.bytes → Unnarrowed K a := by
  intro K d
  let os := Os.ofFiles [([.normal "src", .normal "a"], 3, [1, 2, 3])]
  let args := { CompressArgs.single with bs := 2 }
  let nonce : Nonce := Vector.replicate 12 0
  refine ⟨?_, by decide +kernel, fun pre d₁ a hpre hpreRun hchain hbytes => ?_⟩
  · obtain ⟨⟨root, queue, archive⟩, hopen, hshown⟩ := Except.exists_of_toOption_map
      (x := (openArchive K Setup.single args none).1)
      (f := fun r => (Threads.run K ⟨os, r.1, 2, r.2.2, nonce⟩ overtaking
        (Threads.spawn ⟨os, r.1, 2, r.2.2, nonce⟩ r.2.1 (openArchive K Setup.single args none).2)).map
          fun s => (s.succeeded, s.path))
      (b := some (true, some storedA)) (by decide +kernel)
    obtain ⟨s, hrun, hs⟩ := Option.map_eq_some_iff.1 hshown
    obtain ⟨hmain, hpath⟩ := Prod.mk.inj hs
    have hreturned : s.main = .returned (.ok ()) := by
      unfold Threads.State.succeeded at hmain
      split at hmain
      · assumption
      · cases hmain
    have hread : d.read ["a.cryo"] = some storedA := by decide +kernel
    rw [hread, ← hpath]
    exact Returns.late (Act.run_of_ok hopen) hrun hreturned
  · have hlengths : ∀ n < 3, ((runCalls K (twoCalls.take n) d).map fun d₁ =>
        (d₁.read ["a.cryo"]).all fun b => decide (b.length < 2 ^ 32)) = some true := by decide +kernel
    have hshort : (∀ h b, K.headerToVec h = some b → b.length < 2 ^ 32) ∧
        ∀ x b, K.indexToVec x = some b → b.length < 2 ^ 32 := Crates.tabled_short (by decide) (by decide)
    have hlength := hlengths pre.length (Nat.lt_succ_of_le hpre.length_le)
    rw [← List.prefix_iff_eq_take.1 hpre, hpreRun, Option.map_some, hbytes] at hlength
    exact hchain.unnarrowed (Crates.tabled_lawful _ _) (hshort.1 _) (hshort.2 _) (by simpa using hlength)

/-- The archive of `src/a` is appended to twice; the first call is killed while it writes the copy. -/
theorem session_verifies_twice :
    let K := Crates.tabled [Header.stored 2] [indexOfA, indexOfAB]
    let os := Os.ofFiles [([.normal "src", .normal "a"], 3, [1, 2, 3])]
    let args := { CompressArgs.single with bs := 2 }
    let d := Disk.ofFiles [(["a.cryo"], storedA)]
    ∃ (d' : Disk) (draws : Draws) (arch arch' : ArchiveWriter),
      (∀ delivery, initializeCompression K Setup.single ⟨os, draws, delivery⟩ args = .ok arch) ∧
      runCalls K [(AppendTask.two, appending.take 18), (AppendTask.two, appending)] d = some d' ∧
      d'.read ["a.cryo"] = some arch'.writer.bytes ∧ d'.read ["a.cryo"] ≠ d.read ["a.cryo"] ∧
      arch.index.files <+: arch'.index.files := by
  intro K os args d
  obtain ⟨hcall, hnone, hfits⟩ := twoCalls_ready
  have hshown : (runCalls K twoCalls d).map (fun d' => decide (d'.read ["a.cryo"] = d.read ["a.cryo"]))
      = some false := by decide +kernel
  obtain ⟨d', hruns, hdiff⟩ := Option.map_eq_some_iff.1 hshown
  have hlink : ∀ t, d.entry AppendTask.two.copy ≠ some (.link t) := by simp [d, hnone]
  obtain ⟨draws, arch, arch', hmade, _, hread', hfiles, _⟩ := session_verifies (Crates.tabled_lawful _ _)
    (show K.headerToVec (args.header Setup.single) = some [] by decide +kernel) (fun faults hf => by cases hf; rfl)
    (by decide) (by decide) (Os.ofFiles_still (by decide)) (fun _ _ h => by cases h) hcall hlink
    (by simp [hnone])
    (fun call hmem => by
      have hcalls : ∀ call ∈ twoCalls, call.1 = AppendTask.two := by simp [twoCalls]
      rw [hcalls call hmem]
      exact ⟨rfl, rfl, Os.ofFiles_still (by decide), rfl⟩) hfits hruns
  exact ⟨d', draws, arch, arch', hmade, hruns, hread', by simpa using hdiff, hfiles⟩

end Cryo
