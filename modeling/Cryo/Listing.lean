import Cryo.Calendar
import Cryo.Loader

/-!
# Listing an archive

`list_files` of `list.rs`, with the compressed sizes of `format.rs`: an archive is opened and loaded as by every other
command, and its header and entries are printed for a terminal, as lines with tabs or as JSON. What is printed is the
list of the texts given to `println!`. Arithmetic on `u64` and `i64` is checked: an operation that overflows ends the
listing. Shares of blocks are counted in floating point.

* `Index.fileCompressedSize_ok`, `Index.totalCompressedSize_ok`: the compressed sizes of an index never overflow.
* `wp_printHuman`, `prints_printPlain`, `prints_printJson`: a listing for a terminal returns or overflows, by the sizes
  and the timestamps of the entries; the other two return.
* `listFiles_safe_iff`: a listing overflows nowhere exactly when the running total and the starts of the days fit.
-/

namespace Cryo

open Posix Checked

/-! ## Compressed sizes -/

/-- `as f64`. -/
def asF64 (n : Nat) : Float := (UInt64.ofNat n).toFloat

/-- The state of the loop over the blocks. -/
structure Share where
  streamPos : Nat
  compressed : Float

namespace Index

def totalCompressedSize (x : Index) : Except Overflow Nat := sumU (x.block.map BlockEntry.sizeStored)

/-- What a block adds to the share of a file. -/
def addShare (fileStart fileEnd : Nat) (s : Share) (block : BlockEntry) : Except Overflow Share := do
  let blockStart := s.streamPos
  let blockEnd ← addU blockStart block.sizePlain
  if blockEnd ≤ fileStart ∨ blockStart ≥ fileEnd then .ok ⟨blockEnd, s.compressed⟩
  else if block.sizePlain = 0 then .ok ⟨blockEnd, s.compressed⟩
  else
    let overlap ← subU (min fileEnd blockEnd) (max fileStart blockStart)
    let fraction := asF64 overlap / asF64 block.sizePlain
    .ok ⟨blockEnd, s.compressed + fraction * asF64 block.sizeStored⟩

def fileCompressedSize (x : Index) (f : FileEntry) : Except Overflow Nat :=
  if f.size = 0 then .ok 0
  else do
    let fileStart := f.streamOffset
    let fileEnd := saturatingAdd fileStart f.size
    let s ← x.block.foldlM (addShare fileStart fileEnd) ⟨0, 0⟩
    .ok s.compressed.toUInt64.toNat

end Index

/-! ## Texts -/

/-- The algorithm as the `--compression` flag takes it. -/
def algoName : Compressor → String
  | .zstd => "zstd"
  | .xz => "xz"
  | .deflate => "deflate"
  | .none => "none"

def compressionLabel (header : Header) : String :=
  match header.compression with
  | .none => algoName header.compression
  | _ => algoName header.compression ++ " (level " ++ toString header.compressionLevel ++ ")"

def encryptionLabel : EncryptionType → String
  | .aes => "AES-256-GCM"
  | .chaCha => "ChaCha20-Poly1305"
  | .none => "none"

def typeLabel : FileType → String
  | .file => "file"
  | .dir => "dir"
  | .symlink => "link"

def color : FileType → String
  | .file => ""
  | .dir => "\x1b[34m"
  | .symlink => "\x1b[36m"

/-- A permission bit as its letter. -/
def permission (perms mask : Nat) (c : Char) : Char := if perms &&& mask ≠ 0 then c else '-'

def formatPermissions (perms : Nat) : String :=
  String.ofList [permission perms 0o400 'r', permission perms 0o200 'w', permission perms 0o100 'x',
    permission perms 0o040 'r', permission perms 0o020 'w', permission perms 0o010 'x',
    permission perms 0o004 'r', permission perms 0o002 'w', permission perms 0o001 'x']

/-- `{:<w}`. -/
def padRight (w : Nat) (s : String) : String := s.pushn ' ' (w - s.length)

/-- `{:>w}`. -/
def padLeft (w : Nat) (s : String) : String := "".pushn ' ' (w - s.length) ++ s

/-- `compressed.saturating_mul(100).checked_div(size)`. -/
def percent (compressed size : Nat) : Option Nat :=
  if size = 0 then none else some (saturatingMul compressed 100 / size)

/-- A character inside a JSON string. -/
def escape (c : Char) : List Char :=
  if c = '\"' then ['\\', '\"']
  else if c = '\\' then ['\\', '\\']
  else if c = '\n' then ['\\', 'n']
  else if c = '\r' then ['\\', 'r']
  else if c = '\t' then ['\\', 't']
  else if c.toNat < 32 then
    let digits := Nat.toDigits 16 c.toNat
    ['\\', 'u'] ++ List.replicate (4 - digits.length) '0' ++ digits
  else [c]

def js (s : String) : String := String.ofList ('\"' :: s.toList.flatMap escape ++ ['\"'])

/-! ## Printing -/

/-- What a listing asks of its surroundings: whether a path is a file, the bytes of a file, the password, whether the
output is a terminal, how many bytes are shown, and how a path was written. -/
structure ListSetup where
  isFile : Path → Bool
  openFile : Path → Except Errno Bytes
  prompts : Prompts
  isTerminal : Bool
  byteSize : Nat → String
  display : Path → String

/-- The texts printed so far. -/
abbrev ListM := Act (List String) Halt

def println (text : String) : ListM Unit := Act.modify (· ++ [text])

/-- The panic of an operation that overflows. -/
def overflowed : Overflow → Halt
  | .add => .panic "attempt to add with overflow"
  | .sub => .panic "attempt to subtract with overflow"
  | .mul => .panic "attempt to multiply with overflow"

def arith {α : Type} (r : Except Overflow α) : ListM α := Act.lift (r.mapError overflowed)

variable (setup : ListSetup) (structs : FileStructs) (archivePath : String)

/-- The size and the ratio of an entry in the listing for a terminal. -/
def humanSizes (index : Index) (entry : FileEntry) : ListM (String × String) :=
  match entry.ftype with
  | .file => do
    let compr ← arith (index.fileCompressedSize entry)
    let ratio := (percent compr entry.size).elim "   --" fun r => padLeft 4 (toString r) ++ "%"
    pure (padLeft 10 (setup.byteSize entry.size), ratio)
  | _ => pure (padLeft 10 "---", "   --")

/-- One entry, and the running total after it. -/
def printHumanEntry (index : Index) (totalSize : Nat) (entry : FileEntry) : ListM Nat := do
  let perms := formatPermissions entry.permissions
  let c := color entry.ftype
  let sizes ← humanSizes setup index entry
  let ts ← arith (formatTimestamp entry.timestamp)
  let pathStr := entry.symlinkTarget.elim (c ++ setup.display entry.path ++ "\x1b[0m") fun target =>
    c ++ setup.display entry.path ++ "\x1b[0m \x1b[2m->\x1b[0m " ++ c ++ setup.display target ++ "\x1b[0m"
  println ("  " ++ perms ++ "  " ++ c ++ padRight 4 (typeLabel entry.ftype) ++ "\x1b[0m  " ++ sizes.1 ++ "  " ++ sizes.2
    ++ "  " ++ ts ++ "  " ++ pathStr)
  if entry.ftype = .file then arith (addU totalSize entry.size) else pure totalSize

/-- The table of the entries, with its head and its total. -/
def printTable (index : Index) : ListM Unit := do
  println ("  \x1b[2m" ++ padRight 9 "Perms" ++ "  " ++ padRight 4 "Type" ++ "  " ++ padLeft 10 "Size" ++ "  "
    ++ padLeft 5 "Ratio" ++ "  " ++ padRight 19 "Modified" ++ "  Path\x1b[0m")
  println ("  " ++ "".pushn '\u2500' 80)
  let totalSize ← index.files.foldlM (printHumanEntry setup index) 0
  let totalCompressed ← arith index.totalCompressedSize
  let archiveRatio := (percent totalCompressed totalSize).elim "--" fun r => toString r ++ "%"
  println ("  " ++ "".pushn '\u2500' 80)
  println ("  \x1b[1mTotal:\x1b[0m " ++ setup.byteSize totalSize ++ " uncompressed  "
    ++ setup.byteSize totalCompressed ++ " compressed  (" ++ archiveRatio ++ ")  (" ++ toString index.files.length
    ++ " entries)")

def printHuman : ListM Unit := do
  println ("\x1b[1mArchive:\x1b[0m  " ++ archivePath)
  println ("  \x1b[2mversion:\x1b[0m     " ++ toString structs.header.version)
  println ("  \x1b[2mencryption:\x1b[0m  " ++ encryptionLabel structs.header.encryption)
  println ("  \x1b[2mcompression:\x1b[0m " ++ compressionLabel structs.header)
  println ("  \x1b[2mblock size:\x1b[0m  " ++ setup.byteSize structs.header.blockSize)
  println ("  \x1b[2mfiles:\x1b[0m       " ++ toString structs.index.files.length)
  println ""
  if structs.index.files.isEmpty then println "  (empty archive)"
  else printTable setup structs.index

/-- The size, compressed size and ratio of an entry as numbers. -/
def plainSizes (index : Index) (entry : FileEntry) : ListM (Nat × Nat × Nat) :=
  match entry.ftype with
  | .file => do
    let c ← arith (index.fileCompressedSize entry)
    let r := (percent c entry.size).getD 0
    pure (entry.size, c, r)
  | _ => pure (0, 0, 0)

def printPlainEntry (index : Index) (entry : FileEntry) : ListM Unit := do
  let sizes ← plainSizes index entry
  let fields := [typeLabel entry.ftype, formatPermissions entry.permissions, toString sizes.1, toString sizes.2.1,
    toString sizes.2.2, toString entry.timestamp, setup.display entry.path]
  println ("\t".intercalate (fields ++ (entry.symlinkTarget.map setup.display).toList))

def printPlain : ListM Unit := do
  let totalCompressed ← arith structs.index.totalCompressedSize
  println ("# archive=" ++ archivePath ++ "\tversion=" ++ toString structs.header.version ++ "\tencryption="
    ++ encryptionLabel structs.header.encryption ++ "\tcompression=" ++ algoName structs.header.compression
    ++ "\tcompression_level=" ++ toString structs.header.compressionLevel ++ "\tblock_size="
    ++ toString structs.header.blockSize ++ "\ttotal_uncompressed=" ++ toString structs.index.totalStreamSize
    ++ "\ttotal_compressed=" ++ toString totalCompressed)
  structs.index.files.forM (printPlainEntry setup structs.index)

def printJsonEntry (index : Index) (trailing : String) (entry : FileEntry) : ListM Unit := do
  let sizes ← plainSizes index entry
  let targetField := entry.symlinkTarget.elim "" fun t => ",\n      \"target\": " ++ js (setup.display t)
  println "    \x7b"
  println ("      \"type\": " ++ js (typeLabel entry.ftype) ++ ",")
  println ("      \"path\": " ++ js (setup.display entry.path) ++ ",")
  println ("      \"permissions\": " ++ js (formatPermissions entry.permissions) ++ ",")
  println ("      \"size\": " ++ toString sizes.1 ++ ",")
  println ("      \"compressed\": " ++ toString sizes.2.1 ++ ",")
  println ("      \"ratio\": " ++ toString sizes.2.2 ++ ",")
  println ("      \"modified\": " ++ toString entry.timestamp ++ targetField)
  println ("    \x7d" ++ trailing)

/-- The entries from number `i` on. -/
def printJsonEntries (index : Index) (last : Nat) : Nat → List FileEntry → ListM Unit
  | _, [] => pure ()
  | i, entry :: entries => do
    printJsonEntry setup index (if i < last then "," else "") entry
    printJsonEntries index last (i + 1) entries

def printJson : ListM Unit := do
  let totalCompressed ← arith structs.index.totalCompressedSize
  println "\x7b"
  println ("  \"archive\": " ++ js archivePath ++ ",")
  println ("  \"version\": " ++ toString structs.header.version ++ ",")
  println ("  \"encryption\": " ++ js (encryptionLabel structs.header.encryption) ++ ",")
  println ("  \"compression\": " ++ js (algoName structs.header.compression) ++ ",")
  println ("  \"compression_level\": " ++ toString structs.header.compressionLevel ++ ",")
  println ("  \"block_size\": " ++ toString structs.header.blockSize ++ ",")
  println ("  \"total_uncompressed\": " ++ toString structs.index.totalStreamSize ++ ",")
  println ("  \"total_compressed\": " ++ toString totalCompressed ++ ",")
  println "  \"files\": ["
  printJsonEntries setup structs.index (structs.index.files.length - 1) 0 structs.index.files
  println "  ]"
  println "\x7d"

/-! ## The command -/

inductive OutputFormat where
  | auto
  | human
  | plain
  | json
  deriving DecidableEq

structure ListArgs where
  archive : Path
  format : OutputFormat
  confirm : Bool

def checkReadOnlyArgsForErrors (archive : Path) : Result Unit :=
  if archive.extension = some "cryo" ∧ setup.isFile archive then .ok ()
  else .error (.initializationError "path is not a .cryo archive file")

variable (K : Crates)

/-- The archive that is listed. -/
def loadListed (args : ListArgs) : Result FileStructs := do
  checkReadOnlyArgsForErrors setup args.archive
  let f ← ioFailed args.archive (setup.openFile args.archive)
  retrieve K f args.archive Limits.default setup.prompts args.confirm

def printListing (format : OutputFormat) : ListM Unit :=
  match format with
  | .human => printHuman setup structs archivePath
  | .plain => printPlain setup structs archivePath
  | .json => printJson setup structs archivePath
  | .auto => if setup.isTerminal then printHuman setup structs archivePath else printPlain setup structs archivePath

def listFiles (args : ListArgs) : ListM Unit := do
  let structs ← Act.lift ((loadListed setup K args).mapError .err)
  printListing setup structs (setup.display args.archive) args.format

/-! ## Sizes that fit -/

/-- The numbers of an index are those that their fields hold, and there are fewer than `2 ^ 31` blocks. -/
structure Index.Typed (x : Index) : Prop where
  size : ∀ f ∈ x.files, f.size < 2 ^ 64
  streamOffset : ∀ f ∈ x.files, f.streamOffset < 2 ^ 64
  timestamp : ∀ f ∈ x.files, f.timestamp < 2 ^ 64
  sizePlain : ∀ b ∈ x.block, b.sizePlain < 2 ^ 32
  sizeStored : ∀ b ∈ x.block, b.sizeStored < 2 ^ 32
  blocks : x.block.length < 2 ^ 31

namespace Index

variable {x : Index}

/-- Few `u32` have a sum of 64 bits. -/
theorem Typed.sum_lt (hx : x.Typed) {g : BlockEntry → Nat} (hg : ∀ b ∈ x.block, g b < 2 ^ 32) :
    (x.block.map g).sum < 2 ^ 64 := by
  have hlen : (x.block.map g).length < 2 ^ 31 := by rw [List.length_map]; exact hx.blocks
  have hsum := sum_lt_of_forall_lt hlen (by decide : 0 < 2 ^ 32) fun n hn => by
    obtain ⟨b, hb, rfl⟩ := List.mem_map.1 hn
    exact hg b hb
  omega

theorem totalCompressedSize_ok (hx : x.Typed) : ∃ n, x.totalCompressedSize = .ok n :=
  ⟨_, sumU_of_lt (hx.sum_lt hx.sizeStored)⟩

section

variable {fileStart fileEnd : Nat} {block : BlockEntry}

/-- A block whose end fits overflows nowhere: the overlap is only taken when there is one. -/
theorem addShare_ok (hfile : fileStart ≤ fileEnd) {s : Share} (hfits : s.streamPos + block.sizePlain < 2 ^ 64) :
    ∃ s', addShare fileStart fileEnd s block = .ok s' ∧ s'.streamPos = s.streamPos + block.sizePlain := by
  unfold addShare
  dsimp only
  rw [addU_of_lt hfits, Except.ok_bind]
  split_ifs with hoff hempty
  · exact ⟨_, rfl, rfl⟩
  · exact ⟨_, rfl, rfl⟩
  · rw [subU_of_le (by omega), Except.ok_bind]
    exact ⟨_, rfl, rfl⟩

theorem foldlM_addShare_ok (hfile : fileStart ≤ fileEnd) : ∀ {blocks : List BlockEntry} {s : Share},
    s.streamPos + (blocks.map BlockEntry.sizePlain).sum < 2 ^ 64 →
    ∃ s', blocks.foldlM (addShare fileStart fileEnd) s = .ok s'
  | [], s, _ => ⟨s, rfl⟩
  | b :: blocks, s, h => by
    rw [List.map_cons, List.sum_cons] at h
    obtain ⟨s₁, hs₁, hpos⟩ : ∃ s₁, addShare fileStart fileEnd s b = .ok s₁ ∧ s₁.streamPos = s.streamPos + b.sizePlain :=
      addShare_ok hfile (by omega)
    rw [List.foldlM_cons, hs₁, Except.ok_bind]
    exact foldlM_addShare_ok hfile (by omega)

end

/-- **The range arithmetic is safe**: an end that saturates is not before the start. -/
theorem fileCompressedSize_ok (hx : x.Typed) {f : FileEntry} (hf : f ∈ x.files) :
    ∃ n, x.fileCompressedSize f = .ok n := by
  unfold fileCompressedSize
  split_ifs with hsize
  · exact ⟨0, rfl⟩
  · have hfile : f.streamOffset ≤ saturatingAdd f.streamOffset f.size := le_saturatingAdd (hx.streamOffset f hf)
    have hsum : (⟨0, 0⟩ : Share).streamPos + (x.block.map BlockEntry.sizePlain).sum < 2 ^ 64 := by
      rw [Nat.zero_add]
      exact hx.sum_lt hx.sizePlain
    obtain ⟨s, hs⟩ := foldlM_addShare_ok hfile hsum
    dsimp only
    rw [hs, Except.ok_bind]
    exact ⟨_, rfl⟩

/-- The running total of the listing for a terminal. -/
def listedSize (files : List FileEntry) : Nat := ((files.filter (·.ftype = .file)).map FileEntry.size).sum

/-- The running total fits, and the start of every day. -/
def Listable (x : Index) : Prop := listedSize x.files < 2 ^ 64 ∧ ∀ f ∈ x.files, Dated f.timestamp

end Index

/-! ## Where a listing overflows -/

section

variable {setup structs archivePath} {E : Halt → List String → Prop} {out : List String}

@[simp] theorem wp_println (text : String) {Q : Unit → List String → Prop} :
    Act.wp (println text) Q E out ↔ Q () (out ++ [text]) := Iff.rfl

theorem arith_ok {α : Type} {r : Except Overflow α} {a : α} (h : r = .ok a) : arith r = pure a := by rw [h]; rfl

theorem arith_error {α : Type} {r : Except Overflow α} {o : Overflow} (h : r = .error o) :
    arith r = Act.throw (overflowed o) := by rw [h]; rfl

/-- The listing of an index overflows. -/
def Overflows (e : Halt) : Prop := ∃ o, e = overflowed o

variable {x : Index} {f : FileEntry}

theorem humanSizes_ok (hx : x.Typed) (hf : f ∈ x.files) : ∃ r, humanSizes setup x f = pure r := by
  obtain ⟨n, hn⟩ := Index.fileCompressedSize_ok hx hf
  unfold humanSizes
  rw [arith_ok hn]
  cases f.ftype <;> exact ⟨_, rfl⟩

theorem plainSizes_ok (hx : x.Typed) (hf : f ∈ x.files) : ∃ r, plainSizes x f = pure r := by
  obtain ⟨n, hn⟩ := Index.fileCompressedSize_ok hx hf
  unfold plainSizes
  rw [arith_ok hn]
  cases f.ftype <;> exact ⟨_, rfl⟩

theorem listedSize_cons (files : List FileEntry) :
    Index.listedSize (f :: files) = (if f.ftype = .file then f.size else 0) + Index.listedSize files := by
  unfold Index.listedSize
  by_cases hfile : f.ftype = .file <;> simp [hfile]

/-- **One entry**: it is printed when its day starts at a number of 64 bits, and counted when the total fits. -/
theorem wp_printHumanEntry (hx : x.Typed) (hf : f ∈ x.files) {total : Nat} (htotal : total < 2 ^ 64) :
    Act.wp (printHumanEntry setup x total f)
      (fun t _ => Dated f.timestamp ∧ t < 2 ^ 64 ∧ t = total + if f.ftype = .file then f.size else 0)
      (fun e _ => Overflows e ∧ ¬ (Dated f.timestamp ∧ (total + if f.ftype = .file then f.size else 0) < 2 ^ 64))
      out := by
  obtain ⟨sizes, hsizes⟩ : ∃ r, humanSizes setup x f = pure r := humanSizes_ok hx hf
  by_cases hdated : Dated f.timestamp
  · obtain ⟨ts, hts⟩ := formatTimestamp_of_dated (hx.timestamp f hf) hdated
    unfold printHumanEntry
    simp only [hsizes, arith_ok hts, pure_bind, Act.wp_bind, wp_println]
    by_cases hfile : f.ftype = .file
    · rw [if_pos hfile, if_pos hfile]
      by_cases hsum : total + f.size < 2 ^ 64
      · rw [arith_ok (addU_of_lt hsum)]
        exact ⟨hdated, hsum, rfl⟩
      · rw [arith_error (addU_of_le (Nat.not_lt.1 hsum))]
        exact ⟨⟨.add, rfl⟩, fun h => hsum h.2⟩
    · rw [if_neg hfile, if_neg hfile]
      exact ⟨hdated, htotal, rfl⟩
  · have hts := formatTimestamp_of_not_dated (hx.timestamp f hf) hdated
    unfold printHumanEntry
    simp only [hsizes, arith_error hts, pure_bind, Act.wp_bind, Act.wp_throw]
    exact ⟨⟨.sub, rfl⟩, fun h => hdated h.1⟩

/-- The loop over entries. -/
theorem wp_printHumanEntries (hx : x.Typed) : ∀ {files : List FileEntry} {total : Nat} {out : List String},
    (∀ f ∈ files, f ∈ x.files) → total < 2 ^ 64 →
    Act.wp (files.foldlM (printHumanEntry setup x) total)
      (fun _ _ => total + Index.listedSize files < 2 ^ 64 ∧ ∀ f ∈ files, Dated f.timestamp)
      (fun e _ => Overflows e ∧ ¬ (total + Index.listedSize files < 2 ^ 64 ∧ ∀ f ∈ files, Dated f.timestamp)) out
  | [], total, out, _, htotal => ⟨htotal, fun f hf => by cases hf⟩
  | f :: files, total, out, hmem, htotal => by
    rw [List.foldlM_cons, Act.wp_bind, listedSize_cons, ← Nat.add_assoc]
    refine Act.wp_mono (wp_printHumanEntry hx (hmem f List.mem_cons_self) htotal) ?_ ?_
    · rintro t s' ⟨hdated, ht, rfl⟩
      refine Act.wp_mono (wp_printHumanEntries hx (fun g hg => hmem g (List.mem_cons_of_mem f hg)) ht) ?_ ?_
      · rintro _ _ ⟨hsum, hall⟩
        exact ⟨hsum, List.forall_mem_cons.2 ⟨hdated, hall⟩⟩
      · rintro e _ ⟨he, hnot⟩
        exact ⟨he, fun h => hnot ⟨h.1, fun g hg => h.2 g (List.mem_cons_of_mem f hg)⟩⟩
    · rintro e _ ⟨he, hnot⟩
      refine ⟨he, fun h => hnot ⟨h.2 f List.mem_cons_self, ?_⟩⟩
      exact Nat.lt_of_le_of_lt (Nat.le_add_right _ _) h.1

/-- **The listing for a terminal** returns when the index is listable, and overflows otherwise. -/
theorem wp_printHuman (hx : structs.index.Typed) :
    Act.wp (printHuman setup structs archivePath) (fun _ _ => structs.index.Listable)
      (fun e _ => Overflows e ∧ ¬ structs.index.Listable) out := by
  obtain ⟨n, hn⟩ := Index.totalCompressedSize_ok hx
  unfold printHuman
  simp only [Act.wp_bind, wp_println, Act.wp_ite]
  split_ifs with hempty
  · rw [List.isEmpty_iff] at hempty
    refine ⟨?_, fun f hf => ?_⟩
    · rw [hempty]; decide
    · rw [hempty] at hf; cases hf
  · unfold printTable
    simp only [Act.wp_bind, wp_println]
    refine Act.wp_mono (wp_printHumanEntries hx (fun f hf => hf) (by decide)) ?_ ?_
    · rintro total _ hlist
      rw [Nat.zero_add] at hlist
      rw [arith_ok hn]
      exact hlist
    · rintro e _ ⟨he, hnot⟩
      rw [Nat.zero_add] at hnot
      exact ⟨he, hnot⟩

/-- An action that fails nowhere, from whatever has been printed. -/
abbrev Prints {α : Type} (x : ListM α) : Prop := ∀ out, Act.wp x (fun _ _ => True) (fun _ _ => False) out

theorem prints_forM {α : Type} {g : α → ListM Unit} : ∀ {l : List α}, (∀ a ∈ l, Prints (g a)) → Prints (l.forM g)
  | [], _, _ => trivial
  | a :: l, h, out => by
    show Act.wp (g a >>= fun _ => l.forM g) _ _ out
    rw [Act.wp_bind]
    exact Act.wp_mono (h a List.mem_cons_self out)
      (fun _ s _ => prints_forM (fun b hb => h b (List.mem_cons_of_mem a hb)) s) (fun _ _ h => h)

theorem prints_printPlainEntry (hx : x.Typed) (hf : f ∈ x.files) : Prints (printPlainEntry setup x f) := by
  intro out
  obtain ⟨sizes, hsizes⟩ := plainSizes_ok hx hf
  unfold printPlainEntry
  rw [hsizes]
  trivial

theorem prints_printPlain (hx : structs.index.Typed) : Prints (printPlain setup structs archivePath) := by
  intro out
  obtain ⟨n, hn⟩ := Index.totalCompressedSize_ok hx
  unfold printPlain
  simp only [arith_ok hn, pure_bind, Act.wp_bind, wp_println]
  exact prints_forM (fun f hf => prints_printPlainEntry hx hf) _

theorem prints_printJsonEntry (hx : x.Typed) (hf : f ∈ x.files) (trailing : String) :
    Prints (printJsonEntry setup x trailing f) := by
  intro out
  obtain ⟨sizes, hsizes⟩ := plainSizes_ok hx hf
  unfold printJsonEntry
  rw [hsizes]
  trivial

theorem prints_printJsonEntries (hx : x.Typed) (last : Nat) : ∀ {files : List FileEntry} {i : Nat},
    (∀ f ∈ files, f ∈ x.files) → Prints (printJsonEntries setup x last i files)
  | [], _, _, _ => trivial
  | f :: files, i, hmem, out => by
    unfold printJsonEntries
    rw [Act.wp_bind]
    exact Act.wp_mono (prints_printJsonEntry hx (hmem f List.mem_cons_self) _ out)
      (fun _ s _ => prints_printJsonEntries hx last (fun g hg => hmem g (List.mem_cons_of_mem f hg)) s)
      (fun _ _ h => h)

theorem prints_printJson (hx : structs.index.Typed) : Prints (printJson setup structs archivePath) := by
  intro out
  obtain ⟨n, hn⟩ := Index.totalCompressedSize_ok hx
  unfold printJson
  simp only [arith_ok hn, pure_bind, Act.wp_bind, wp_println]
  exact Act.wp_mono (prints_printJsonEntries hx _ (fun f hf => hf) _) (fun _ _ _ => trivial) (fun _ _ h => h)

/-- The listing for a terminal is the one that is printed. -/
def ListSetup.human (setup : ListSetup) (format : OutputFormat) : Prop :=
  format = .human ∨ format = .auto ∧ setup.isTerminal

/-- **Where a listing overflows**: nowhere as lines or as JSON, and for a terminal when the index is not listable. -/
theorem wp_printListing (hx : structs.index.Typed) (format : OutputFormat) :
    Act.wp (printListing setup structs archivePath format) (fun _ _ => setup.human format → structs.index.Listable)
      (fun e _ => Overflows e ∧ setup.human format ∧ ¬ structs.index.Listable) out := by
  have hhuman : setup.human format → Act.wp (printHuman setup structs archivePath)
      (fun _ _ => setup.human format → structs.index.Listable)
      (fun e _ => Overflows e ∧ setup.human format ∧ ¬ structs.index.Listable) out := fun h =>
    Act.wp_mono (wp_printHuman hx) (fun _ _ hlist _ => hlist) (fun _ _ he => ⟨he.1, h, he.2⟩)
  have hother : ∀ {p : ListM Unit}, Prints p → ¬ setup.human format → Act.wp p
      (fun _ _ => setup.human format → structs.index.Listable)
      (fun e _ => Overflows e ∧ setup.human format ∧ ¬ structs.index.Listable) out := fun hp h =>
    Act.wp_mono (hp out) (fun _ _ _ hh => absurd hh h) (fun _ _ he => he.elim)
  cases format with
  | human => exact hhuman (.inl rfl)
  | plain => exact hother (prints_printPlain hx) (by simp [ListSetup.human])
  | json => exact hother (prints_printJson hx) (by simp [ListSetup.human])
  | auto =>
    by_cases hterminal : setup.isTerminal = true
    · rw [show printListing setup structs archivePath .auto = printHuman setup structs archivePath from if_pos hterminal]
      exact hhuman (.inr ⟨rfl, hterminal⟩)
    · rw [show printListing setup structs archivePath .auto = printPlain setup structs archivePath from if_neg hterminal]
      exact hother (prints_printPlain hx) (by simp [ListSetup.human, hterminal])

variable {K}

theorem listFiles_eq {args : ListArgs} (hload : loadListed setup K args = .ok structs) :
    listFiles setup K args out = printListing setup structs (setup.display args.archive) args.format out := by
  unfold listFiles
  rw [hload]
  rfl

theorem listFiles_returns {args : ListArgs} (hload : loadListed setup K args = .ok structs)
    (hx : structs.index.Typed) (hsafe : setup.human args.format → structs.index.Listable) :
    (listFiles setup K args out).1 = .ok () := by
  rw [listFiles_eq hload]
  cases hrun : printListing setup structs (setup.display args.archive) args.format out with
  | mk r out' =>
    cases r with
    | ok u => rfl
    | error e =>
      obtain ⟨-, hhuman, hnot⟩ := (Act.of_wp (wp_printListing hx args.format)).2 e hrun
      exact absurd (hsafe hhuman) hnot

theorem listFiles_overflows {args : ListArgs} (hload : loadListed setup K args = .ok structs)
    (hx : structs.index.Typed) (hhuman : setup.human args.format) (hnot : ¬ structs.index.Listable) :
    ∃ o, (listFiles setup K args out).1 = .error (overflowed o) := by
  rw [listFiles_eq hload]
  cases hrun : printListing setup structs (setup.display args.archive) args.format out with
  | mk r out' =>
    cases r with
    | ok u => exact absurd ((Act.of_wp (wp_printListing hx args.format)).1 u hrun hhuman) hnot
    | error e =>
      obtain ⟨⟨o, rfl⟩, -⟩ := (Act.of_wp (wp_printListing hx args.format)).2 e hrun
      exact ⟨o, rfl⟩

variable (K) in
/-- **A listing is safe** exactly when it is not the one for a terminal, or the running total fits into 64 bits and no
entry is dated on the first day that an `i64` denotes. -/
theorem listFiles_safe_iff (setup : ListSetup) (args : ListArgs) (out : List String)
    (htyped : ∀ structs, loadListed setup K args = .ok structs → structs.index.Typed) :
    (∀ o, (listFiles setup K args out).1 ≠ .error (overflowed o)) ↔
      ∀ structs, loadListed setup K args = .ok structs → setup.human args.format → structs.index.Listable := by
  constructor
  · intro hsafe structs hload hhuman
    by_contra hnot
    obtain ⟨o, ho⟩ : ∃ o, (listFiles setup K args out).1 = .error (overflowed o) :=
      listFiles_overflows hload (htyped structs hload) hhuman hnot
    exact hsafe o ho
  · intro hsafe o ho
    cases hload : loadListed setup K args with
    | ok structs =>
      have hok : (listFiles setup K args out).1 = .ok () :=
        listFiles_returns hload (htyped structs hload) (hsafe structs hload)
      cases hok.symm.trans ho
    | error e =>
      have herr : (listFiles setup K args out).1 = .error (.err e) := by
        unfold listFiles
        rw [hload]
        rfl
      cases o <;> cases herr.symm.trans ho

/-! ## What is printed -/

/-- What `println!` writes of the texts. -/
def outputText (out : List String) : List Char := out.flatMap fun line => line.toList ++ ['\n']

@[simp] theorem outputText_append (out : List String) (line : String) :
    outputText (out ++ [line]) = outputText out ++ (line.toList ++ ['\n']) := by simp [outputText]

/-- The size that is shown: a directory and a link have none. -/
def FileEntry.shownSize (entry : FileEntry) : Nat :=
  match entry.ftype with
  | .file => entry.size
  | _ => 0

theorem wp_plainSizes (index : Index) (entry : FileEntry) :
    Act.wp (plainSizes index entry) (fun sizes out' => out' = out ∧ sizes.1 = entry.shownSize)
      (fun _ _ => True) out := by
  unfold plainSizes FileEntry.shownSize
  cases entry.ftype with
  | file =>
    cases hc : index.fileCompressedSize entry with
    | ok c => exact ⟨rfl, rfl⟩
    | error o => trivial
  | dir => exact ⟨rfl, rfl⟩
  | symlink => exact ⟨rfl, rfl⟩

/-! ## Archives whose index is all there is -/

/-- The surroundings of a listing of an archive without data, whose index is the first that was encoded. -/
def ListSetup.bare : ListSetup where
  isFile _ := true
  openFile _ := .ok ([0, 0, 0, 0] ++ Footer.serialize ⟨4, 0, 0, false, Vector.replicate 12 0⟩)
  prompts := ⟨none, none⟩
  isTerminal := false
  byteSize n := toString n ++ " B"
  display p := "/".intercalate p.names

theorem loadListed_bare (x : Index) (format : OutputFormat) :
    loadListed .bare (Crates.tabled [Header.stored 2] [x]) ⟨[.normal "a.cryo"], format, true⟩
      = .ok ⟨Header.stored 2, x, .none, ⟨4, 0, 0, false, Vector.replicate 12 0⟩⟩ := rfl

/-- An index without blocks. -/
theorem typed_of_entries {files : List FileEntry} (h : ∀ f ∈ files, f.size < 2 ^ 64 ∧ f.streamOffset < 2 ^ 64 ∧
    f.timestamp < 2 ^ 64) : (⟨files, [], 0⟩ : Index).Typed where
  size f hf := (h f hf).1
  streamOffset f hf := (h f hf).2.1
  timestamp f hf := (h f hf).2.2
  sizePlain b hb := by cases hb
  sizeStored b hb := by cases hb
  blocks := (by decide : 0 < 2 ^ 31)

/-- A file of the largest size, on the last day that an `i64` denotes. -/
theorem listFiles_safe_largest :
    let f : FileEntry := ⟨[.normal "a"], .file, 2 ^ 64 - 1, 2 ^ 64 - 1, 2 ^ 63 - 1, 0o644, none⟩
    ∀ o, (listFiles .bare (Crates.tabled [Header.stored 2] [⟨[f], [], 0⟩]) ⟨[.normal "a.cryo"], .human, true⟩ []).1
      ≠ .error (overflowed o) := by
  intro f
  refine (listFiles_safe_iff _ _ _ _ fun structs hload => ?_).2 fun structs hload _ => ?_
  · obtain rfl := Except.ok.inj ((loadListed_bare ⟨[f], [], 0⟩ .human).symm.trans hload)
    exact typed_of_entries (by decide)
  · obtain rfl := Except.ok.inj ((loadListed_bare ⟨[f], [], 0⟩ .human).symm.trans hload)
    refine ⟨by decide, fun g hg => ?_⟩
    obtain rfl := List.mem_singleton.1 hg
    unfold Dated
    decide

/-- Two files of half the range, and a file on the first day of an `i64`. -/
theorem listFiles_overflow :
    let f : FileEntry := ⟨[.normal "a"], .file, 0, 2 ^ 63, 0, 0o644, none⟩
    let g : FileEntry := ⟨[.normal "b"], .file, 0, 2 ^ 63, 0, 0o644, none⟩
    let early : FileEntry := ⟨[.normal "a"], .file, 0, 0, 2 ^ 63, 0o644, none⟩
    ∀ files ∈ [[f, g], [early]], (⟨files, [], 0⟩ : Index).Typed ∧
      (∃ structs, loadListed .bare (Crates.tabled [Header.stored 2] [⟨files, [], 0⟩])
        ⟨[.normal "a.cryo"], .human, true⟩ = .ok structs ∧ structs.index.files = files) ∧
      ∃ o, (listFiles .bare (Crates.tabled [Header.stored 2] [⟨files, [], 0⟩])
        ⟨[.normal "a.cryo"], .human, true⟩ []).1 = .error (overflowed o) := by
  intro f g early files hfiles
  have htyped : (⟨files, [], 0⟩ : Index).Typed := typed_of_entries (by revert files; decide)
  have hnot : ¬ (⟨files, [], 0⟩ : Index).Listable := by
    rintro ⟨hsum, hdated⟩
    rcases List.mem_pair.1 hfiles with rfl | rfl
    · exact absurd hsum (by decide)
    · exact hdated early List.mem_cons_self (by decide)
  exact ⟨htyped, ⟨_, loadListed_bare _ _, rfl⟩,
    listFiles_overflows (loadListed_bare _ _) htyped (.inl rfl) hnot⟩

end

end Cryo
