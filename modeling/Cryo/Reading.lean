import Cryo.Format
import Cryo.Lib.Act
import Cryo.Lib.Chunk

/-!
# Reading the files to archive

The reading half of `compress.rs`. What the operating system answers is a parameter (`Os`): the metadata of a path, the
target of a link, and the pieces that successive `read` calls on an open file return. `readFileToBytes` appends an entry
for one path and feeds what it reads into the stream, which is cut into raw blocks of the block size.

What a run sees of a path is a `Source` (`observe`). The loops add nothing to it: a path appends its entry at the
current stream position and its bytes to the stream (`readFileToBytes_eq`, `readFiles_ok`), and the raw blocks are the
numbered chunks of the stream (`produced_feed`), however the bytes arrived.
-/

namespace Cryo

open Posix

/-! ## The operating system -/

/-- What `lstat` says a path is. -/
inductive StatKind where
  | file
  | dir
  | symlink
  | other
  deriving DecidableEq

structure Metadata where
  kind : StatKind
  size : Nat
  mtime : Int
  mode : Nat

/-- An open file: the non-empty results of successive `read` calls with a buffer of the given length, and how the last
call failed, if it did. A read into an empty buffer returns nothing. -/
structure OpenFile where
  reads : Nat → List Bytes
  err : Nat → Option Errno
  fits : ∀ n, ∀ d ∈ reads n, 0 < d.length ∧ d.length ≤ n
  empty : err 0 = none

structure Os where
  symlinkMetadata : Path → Except Errno Metadata
  readLink : Path → Except Errno Path
  openFile : Path → Except Errno OpenFile

theorem OpenFile.reads_zero (f : OpenFile) : f.reads 0 = [] := by
  cases h : f.reads 0 with
  | nil => rfl
  | cons d ds =>
    have := f.fits 0 d (by simp [h])
    omega

/-- Special files are archived as regular files. -/
def Metadata.ftype (m : Metadata) : FileType :=
  match m.kind with
  | .symlink => .symlink
  | .dir => .dir
  | .file | .other => .file

/-- `as u64` on a signed number. -/
def asU64 (t : Int) : Nat := (t % 2 ^ 64).toNat

/-! ## The reader -/

structure RawBlock where
  id : Nat
  rawData : Bytes
  deriving DecidableEq

/-- The reader's variables, and the raw blocks it has sent to the workers. Position and block number, which the source
adds up in a `u64`, are exact: they are the source's as long as they stay below 2^64. -/
structure ReadState where
  files : List FileEntry
  streamPosition : Nat
  blockId : Nat
  pendingBuffer : Bytes
  sent : List RawBlock
  deriving DecidableEq

abbrev ReadM := Act ReadState Halt

namespace ReadState

def push (s : ReadState) (e : FileEntry) : ReadState := { s with files := s.files ++ [e] }

/-- Sends the first `blockSize` pending bytes. -/
def sendBlock (s : ReadState) (blockSize : Nat) : ReadState :=
  { s with
    sent := s.sent ++ [⟨s.blockId, s.pendingBuffer.take blockSize⟩]
    pendingBuffer := s.pendingBuffer.drop blockSize
    blockId := s.blockId + 1 }

/-- The inner loop: whole blocks leave the buffer. With a block size of zero nothing is ever read, so the loop is not
entered. -/
def drain (blockSize : Nat) (s : ReadState) : ReadState :=
  if _h : 0 < blockSize ∧ blockSize ≤ s.pendingBuffer.length then drain blockSize (s.sendBlock blockSize) else s
termination_by s.pendingBuffer.length
decreasing_by simp only [sendBlock, List.length_drop]; omega

/-- One `read` that returned `d`. -/
def consume (blockSize : Nat) (s : ReadState) (d : Bytes) : ReadState :=
  drain blockSize
    { s with pendingBuffer := s.pendingBuffer ++ d, streamPosition := s.streamPosition + d.length }

/-- The partial block that is sent when all files are read. -/
def finalBlock (s : ReadState) : List RawBlock :=
  if s.pendingBuffer = [] then [] else [⟨s.blockId, s.pendingBuffer⟩]

/-- All raw blocks of a run. -/
def produced (s : ReadState) : List RawBlock := s.sent ++ s.finalBlock

end ReadState

/-- `map_err` to a read failure of `p`. -/
def readFailed {α : Type} (p : Path) (r : Except Errno α) : Except Halt α := r.mapError fun e => .err (.readFailed p e)

def stripRoot (p root : Path) : Except Halt Path :=
  match p.stripPrefix root with
  | some stripped => .ok stripped
  | none => .error (.err .invalidPath)

/-- Buffers of more than `isize::MAX` bytes cannot be allocated. -/
def allocBuffer (n : Nat) : Except Halt Unit :=
  if n < 2 ^ 63 then .ok () else .error (.panic "capacity overflow")

theorem allocBuffer_ok {n : Nat} : allocBuffer n = .ok () ↔ n < 2 ^ 63 := by
  unfold allocBuffer
  split <;> simp_all

section
variable (os : Os)

def handleNonRegularFiles (ftype : FileType) (fmetadata : Metadata) (root p : Path) : ReadM Unit := do
  let target ← if ftype = .symlink then Act.lift ((readFailed p (os.readLink p)).map some) else pure none
  let path ← Act.lift (stripRoot p root)
  Act.modify fun s => s.push {
    path := path
    ftype := ftype
    streamOffset := s.streamPosition
    size := 0
    symlinkTarget := target
    timestamp := asU64 fmetadata.mtime
    permissions := fmetadata.mode }

/-- The loop of `read` calls, until one returns nothing or fails. -/
def readLoop (p : Path) (file : OpenFile) (blockSize : Nat) : ReadM Unit := fun s =>
  let s := (file.reads blockSize).foldl (ReadState.consume blockSize) s
  match file.err blockSize with
  | some e => (.error (.err (.readFailed p e)), s)
  | none => (.ok (), s)

def readFileToBytes (p root : Path) (blockSize : Nat) : ReadM Unit := do
  let fmetadata ← Act.lift (readFailed p (os.symlinkMetadata p))
  let stripped ← Act.lift (stripRoot p root)
  if fmetadata.ftype ≠ .file then handleNonRegularFiles os fmetadata.ftype fmetadata root p
  else do
    Act.modify fun s => s.push {
      path := stripped
      ftype := fmetadata.ftype
      streamOffset := s.streamPosition
      size := fmetadata.size
      symlinkTarget := none
      timestamp := asU64 fmetadata.mtime
      permissions := fmetadata.mode }
    let file ← Act.lift (readFailed p (os.openFile p))
    Act.lift (allocBuffer blockSize)
    readLoop p file blockSize

/-- The loop over the queued paths, which stops at the first failure. -/
def readFiles (root : Path) (blockSize : Nat) : List Path → ReadM Unit
  | [] => pure ()
  | p :: ps => do
    readFileToBytes os p root blockSize
    readFiles root blockSize ps

end

/-! ## What a run sees of a path -/

/-- A path as a run saw it: its name below the root, its metadata, a link's target, and the bytes read from it. -/
structure Source where
  path : Path
  metadata : Metadata
  target : Option Path
  data : Bytes

namespace Source

def isFile (src : Source) : Bool := src.metadata.ftype = .file

/-- The entry of a source at a stream position. -/
def entry (src : Source) (pos : Nat) : FileEntry where
  path := src.path
  ftype := src.metadata.ftype
  streamOffset := pos
  size := if src.isFile then src.metadata.size else 0
  symlinkTarget := src.target
  timestamp := asU64 src.metadata.mtime
  permissions := src.metadata.mode

/-- The entries of sources one after another in the stream. -/
def entries : Nat → List Source → List FileEntry
  | _, [] => []
  | pos, src :: srcs => src.entry pos :: entries (pos + src.data.length) srcs

/-- The bytes of all sources. -/
def stream (srcs : List Source) : Bytes := srcs.flatMap Source.data

/-- As many bytes were read as `lstat` promised. -/
def Unchanged (src : Source) : Prop := src.data.length = (src.entry 0).size

@[simp] theorem entry_path (src : Source) (pos : Nat) : (src.entry pos).path = src.path := rfl
@[simp] theorem entry_streamOffset (src : Source) (pos : Nat) : (src.entry pos).streamOffset = pos := rfl
@[simp] theorem entry_ftype (src : Source) (pos : Nat) : (src.entry pos).ftype = src.metadata.ftype := rfl

@[simp] theorem stream_nil : stream [] = [] := rfl

@[simp] theorem stream_cons (src : Source) (srcs : List Source) : stream (src :: srcs) = src.data ++ stream srcs := rfl

theorem entries_append : ∀ (pos : Nat) (as bs : List Source),
    entries pos (as ++ bs) = entries pos as ++ entries (pos + (stream as).length) bs
  | _, [], _ => by simp [entries]
  | pos, a :: as, bs => by
    simp [entries, entries_append (pos + a.data.length) as bs, Nat.add_assoc]

/-- **Where a source is**: its bytes in the stream, and its entry with their position. -/
theorem locate : ∀ {srcs : List Source} {i : Nat} {src : Source} (pos : Nat), srcs[i]? = some src →
    ∃ a b, stream srcs = a ++ src.data ++ b ∧ (entries pos srcs)[i]? = some (src.entry (pos + a.length))
  | [], _, _, _, h => by simp at h
  | _ :: srcs, 0, src, pos, h => by
    simp only [List.getElem?_cons_zero, Option.some.injEq] at h
    subst h
    exact ⟨[], stream srcs, rfl, rfl⟩
  | x :: srcs, i + 1, src, pos, h => by
    obtain ⟨a, b, hs, he⟩ := locate (pos + x.data.length) (List.getElem?_cons_succ ▸ h)
    refine ⟨x.data ++ a, b, by rw [stream_cons, hs]; simp, ?_⟩
    rw [entries, List.getElem?_cons_succ, he, List.length_append, Nat.add_assoc]

theorem le_streamOffset : ∀ {srcs : List Source} {pos : Nat} {e : FileEntry},
    e ∈ entries pos srcs → pos ≤ e.streamOffset
  | [], _, _, h => by cases h
  | src :: srcs, pos, e, h => by
    rcases List.mem_cons.1 h with rfl | h
    · exact Nat.le_refl _
    · exact Nat.le_trans (Nat.le_add_right _ _) (le_streamOffset h)

@[simp] theorem length_entries : ∀ (pos : Nat) (srcs : List Source), (entries pos srcs).length = srcs.length
  | _, [] => rfl
  | pos, src :: srcs => by simp [entries, length_entries _ srcs]

end Source

/-- What is seen of `p`, or how reading it fails. -/
def observe (os : Os) (root : Path) (blockSize : Nat) (p : Path) : Except Halt Source := do
  let m ← readFailed p (os.symlinkMetadata p)
  let path ← stripRoot p root
  match m.ftype with
  | .symlink =>
    let target ← readFailed p (os.readLink p)
    .ok ⟨path, m, some target, []⟩
  | .dir => .ok ⟨path, m, none, []⟩
  | .file =>
    let file ← readFailed p (os.openFile p)
    allocBuffer blockSize
    match file.err blockSize with
    | some e => .error (.err (.readFailed p e))
    | none => .ok ⟨path, m, none, (file.reads blockSize).flatten⟩

/-- Raw blocks with consecutive numbers. -/
def numbered : Nat → List Bytes → List RawBlock
  | _, [] => []
  | n, c :: cs => ⟨n, c⟩ :: numbered (n + 1) cs

theorem numbered_append : ∀ (n : Nat) (as bs : List Bytes),
    numbered n (as ++ bs) = numbered n as ++ numbered (n + as.length) bs
  | _, [], _ => rfl
  | n, a :: as, bs => by
    simp only [List.cons_append, numbered, numbered_append (n + 1) as bs, List.length_cons]
    rw [show n + 1 + as.length = n + (as.length + 1) by omega]

theorem numbered_ids : ∀ (n : Nat) (cs : List Bytes), (numbered n cs).map RawBlock.id = List.range' n cs.length
  | _, [] => rfl
  | n, c :: cs => by simp [numbered, numbered_ids (n + 1) cs, List.range'_succ]

@[simp] theorem numbered_rawData : ∀ (n : Nat) (cs : List Bytes), (numbered n cs).map RawBlock.rawData = cs
  | _, [] => rfl
  | n, c :: cs => by simp [numbered, numbered_rawData (n + 1) cs]

@[simp] theorem length_numbered (n : Nat) (cs : List Bytes) : (numbered n cs).length = cs.length := by
  rw [← List.length_map (f := RawBlock.rawData), numbered_rawData]

namespace ReadState

open Chunk

/-- The state after `d` more bytes of the stream: it depends on the bytes only. -/
def feed (blockSize : Nat) (s : ReadState) (d : Bytes) : ReadState :=
  { s with
    streamPosition := s.streamPosition + d.length
    blockId := s.blockId + (fullChunks blockSize (s.pendingBuffer ++ d)).length
    pendingBuffer := leftover blockSize (s.pendingBuffer ++ d)
    sent := s.sent ++ numbered s.blockId (fullChunks blockSize (s.pendingBuffer ++ d)) }

/-- What is pending is less than a block. -/
def Short (blockSize : Nat) (s : ReadState) : Prop := 0 < blockSize → s.pendingBuffer.length < blockSize

variable {bs : Nat}

theorem drain_eq (s : ReadState) : s.drain bs = { s with
    blockId := s.blockId + (fullChunks bs s.pendingBuffer).length
    pendingBuffer := leftover bs s.pendingBuffer
    sent := s.sent ++ numbered s.blockId (fullChunks bs s.pendingBuffer) } := by
  induction s using drain.induct bs with
  | case1 s h ih =>
    rw [drain, dif_pos h, ih, fullChunks_long h, leftover_long h]
    simp [sendBlock, numbered, Nat.add_comm, Nat.add_left_comm]
  | case2 s h =>
    rw [drain, dif_neg h, fullChunks_short h, leftover_short h]
    simp [numbered]

/-- One read feeds what it returned. -/
theorem consume_eq (s : ReadState) (d : Bytes) : s.consume bs d = s.feed bs d := drain_eq _

theorem feed_short (s : ReadState) (d : Bytes) : (s.feed bs d).Short bs := fun h => length_leftover_lt h _

theorem fullChunks_of_short {s : ReadState} (h : s.Short bs) :
    fullChunks bs s.pendingBuffer = [] ∧ leftover bs s.pendingBuffer = s.pendingBuffer := by
  have hs : ¬(0 < bs ∧ bs ≤ s.pendingBuffer.length) := fun ⟨hp, hle⟩ => by have := h hp; omega
  exact ⟨fullChunks_short hs, leftover_short hs⟩

theorem feed_nil {s : ReadState} (h : s.Short bs) : s.feed bs [] = s := by
  obtain ⟨h1, h2⟩ := fullChunks_of_short h
  simp [feed, h1, h2, numbered]

/-- Feeding in two parts is feeding the whole. -/
theorem feed_feed (h : 0 < bs) (s : ReadState) (d e : Bytes) : (s.feed bs d).feed bs e = s.feed bs (d ++ e) := by
  have h1 := fullChunks_append h (s.pendingBuffer ++ d) e
  have h2 := leftover_append h (s.pendingBuffer ++ d) e
  rw [List.append_assoc] at h1 h2
  simp only [feed, h1, h2, numbered_append, List.length_append, List.append_assoc, Nat.add_assoc]

/-- **The pieces do not matter**: any number of reads feeds the concatenation. -/
theorem foldl_consume (h : 0 < bs) : ∀ (ds : List Bytes) (s : ReadState), s.Short bs →
    ds.foldl (consume bs) s = s.feed bs ds.flatten
  | [], s, hs => (feed_nil hs).symm
  | d :: ds, s, _ => by
    rw [List.foldl_cons, consume_eq, foldl_consume h ds _ (feed_short s d), feed_feed h, List.flatten_cons]

/-- All reads of an open file. With a block size of zero there are none. -/
theorem foldl_reads (f : OpenFile) {s : ReadState} (hs : s.Short bs) :
    (f.reads bs).foldl (consume bs) s = s.feed bs (f.reads bs).flatten := by
  rcases Nat.eq_zero_or_pos bs with rfl | h
  · rw [f.reads_zero]; exact (feed_nil hs).symm
  · exact foldl_consume h _ s hs

/-- A path appended to the state. -/
def add (blockSize : Nat) (s : ReadState) (src : Source) : ReadState :=
  (s.push (src.entry s.streamPosition)).feed blockSize src.data

theorem add_short (s : ReadState) (src : Source) : (s.add bs src).Short bs := feed_short _ _

/-- **What is produced**: the raw blocks are the numbered chunks of everything fed. -/
theorem produced_feed {s : ReadState} (d : Bytes) :
    (s.feed bs d).produced = s.sent ++ numbered s.blockId (chunks bs (s.pendingBuffer ++ d)) := by
  unfold produced finalBlock chunks
  rw [numbered_append, ← List.append_assoc]
  congr 1
  by_cases h : leftover bs (s.pendingBuffer ++ d) = []
  · simp [feed, h, numbered]
  · simp [feed, h, numbered]

end ReadState

/-! ## The loops follow the sources -/

variable {os : Os} {root : Path} {bs : Nat}

/-- The loop of reads feeds the whole file, or fails as its last call does. -/
theorem readLoop_eq (p : Path) (file : OpenFile) {s : ReadState} (hs : s.Short bs) :
    readLoop p file bs s = match file.err bs with
      | some e => (.error (.err (.readFailed p e)), s.feed bs (file.reads bs).flatten)
      | none => (.ok (), s.feed bs (file.reads bs).flatten) := by
  unfold readLoop
  rw [ReadState.foldl_reads file hs]

variable (os root) in
/-- One path appends its source, or fails as observing it does. -/
theorem readFileToBytes_eq (p : Path) {s : ReadState} (hs : s.Short bs) :
    match observe os root bs p with
    | .ok src => readFileToBytes os p root bs s = (.ok (), s.add bs src)
    | .error e => (readFileToBytes os p root bs s).1 = .error e := by
  unfold observe readFileToBytes
  cases readFailed p (os.symlinkMetadata p) with
  | error e => rfl
  | ok m =>
    cases hr : stripRoot p root with
    | error e => rfl
    | ok path =>
      simp only [Act.lift_ok_bind, Except.ok_bind]
      have hpush : ∀ e : FileEntry, (s.push e).feed bs [] = s.push e := fun e => ReadState.feed_nil (s := s.push e) hs
      cases hf : m.ftype with
      | symlink =>
        rw [if_pos (by simp)]
        unfold handleNonRegularFiles
        cases readFailed p (os.readLink p) with
        | error e => rfl
        | ok t =>
          rw [hr]
          simp only [Except.ok_bind, ReadState.add, Source.entry, Source.isFile, hf, hpush]
          rfl
      | dir =>
        rw [if_pos (by simp)]
        unfold handleNonRegularFiles
        rw [hr]
        simp only [ReadState.add, Source.entry, Source.isFile, hf, hpush]
        rfl
      | file =>
        rw [if_neg (by simp)]
        cases readFailed p (os.openFile p) with
        | error e => rfl
        | ok file =>
          cases allocBuffer bs with
          | error e => rfl
          | ok _ =>
            simp only [Act.lift_ok_bind, Except.ok_bind]
            have hloop := fun e : FileEntry => readLoop_eq p file (show (s.push e).Short bs from hs)
            cases he : file.err bs with
            | some e =>
              simp only [he] at hloop
              rw [Act.modify_bind_run, hloop]
            | none =>
              simp only [he] at hloop
              simp only [Act.modify_bind_run, hloop, ReadState.add, Source.entry, Source.isFile, hf]
              rfl

/-- **What a run over the queued paths leaves**: one source for each path, appended in order. -/
theorem readFiles_ok : ∀ {ps : List Path} {s s' : ReadState}, s.Short bs → readFiles os root bs ps s = (.ok (), s') →
    ∃ srcs, List.Forall₂ (fun p src => observe os root bs p = .ok src) ps srcs ∧
      s' = srcs.foldl (ReadState.add bs) s
  | [], s, s', _, h => by
    cases h
    exact ⟨[], .nil, rfl⟩
  | p :: ps, s, s', hs, h => by
    unfold readFiles at h
    rw [Act.bind_run] at h
    have hp := readFileToBytes_eq os root p hs
    cases ho : observe os root bs p with
    | error e =>
      rw [ho] at hp
      cases hrun : readFileToBytes os p root bs s with
      | mk r s₁ =>
        rw [hrun] at hp h
        subst hp
        cases h
    | ok src =>
      rw [ho] at hp
      rw [hp] at h
      obtain ⟨srcs, hm, rfl⟩ := readFiles_ok (ReadState.add_short s src) h
      exact ⟨src :: srcs, .cons ho hm, rfl⟩

/-- Conversely, when every path can be observed the run succeeds. -/
theorem readFiles_of_observe : ∀ {ps : List Path} {srcs : List Source} {s : ReadState}, s.Short bs →
    List.Forall₂ (fun p src => observe os root bs p = .ok src) ps srcs →
    readFiles os root bs ps s = (.ok (), srcs.foldl (ReadState.add bs) s)
  | _, _, _, _, .nil => rfl
  | p :: _, src :: _, s, hs, .cons ho h => by
    have hp := readFileToBytes_eq os root p hs
    rw [ho] at hp
    unfold readFiles
    rw [Act.bind_run, hp]
    exact readFiles_of_observe (ReadState.add_short s src) h

/-- What a source of each type carries: a link its target, a regular file the bytes it gave. -/
def Source.Carries (os : Os) (blockSize : Nat) (p : Path) (src : Source) : Prop :=
  match src.metadata.ftype with
  | .symlink => (∃ t, os.readLink p = .ok t ∧ src.target = some t) ∧ src.data = []
  | .dir => src.target = none ∧ src.data = []
  | .file => src.target = none ∧
    ∃ file, os.openFile p = .ok file ∧ file.err blockSize = none ∧ src.data = (file.reads blockSize).flatten

/-- **What is observed** of a path: its metadata, the rest of the path behind the root, and what it carries. -/
theorem observe_ok {p : Path} {src : Source} (h : observe os root bs p = .ok src) :
    os.symlinkMetadata p = .ok src.metadata ∧ p.stripPrefix root = some src.path ∧ src.Carries os bs p := by
  obtain ⟨m, hm, h⟩ := Except.bind_eq_ok.1 h
  obtain ⟨path, hstrip, h⟩ := Except.bind_eq_ok.1 h
  have hm := Except.mapError_eq_ok.1 hm
  have hpath : p.stripPrefix root = some path := by
    unfold stripRoot at hstrip
    split at hstrip
    · rename_i heq
      rw [heq, Except.ok.inj hstrip]
    · cases hstrip
  unfold Source.Carries
  cases hf : m.ftype with
  | symlink =>
    rw [hf] at h
    obtain ⟨t, ht, h⟩ := Except.bind_eq_ok.1 h
    cases h
    rw [hf]
    exact ⟨hm, hpath, ⟨t, Except.mapError_eq_ok.1 ht, rfl⟩, rfl⟩
  | dir =>
    rw [hf] at h
    cases h
    rw [hf]
    exact ⟨hm, hpath, rfl, rfl⟩
  | file =>
    rw [hf] at h
    obtain ⟨file, hfile, h⟩ := Except.bind_eq_ok.1 h
    obtain ⟨_, _, h⟩ := Except.bind_eq_ok.1 h
    split at h
    · cases h
    · rename_i herr
      cases h
      rw [hf]
      exact ⟨hm, hpath, rfl, file, Except.mapError_eq_ok.1 hfile, herr, rfl⟩

/-- With a block size of zero nothing is read. -/
theorem observe_zero {p : Path} {src : Source} (h : observe os root 0 p = .ok src) : src.data = [] := by
  obtain ⟨_, _, hcarries⟩ := observe_ok h
  unfold Source.Carries at hcarries
  split at hcarries
  · exact hcarries.2
  · exact hcarries.2
  · obtain ⟨_, file, _, _, hdata⟩ := hcarries
    rw [hdata, file.reads_zero]
    rfl

/-- Only regular files have bytes. -/
theorem observe_not_file {p : Path} {src : Source} (h : observe os root bs p = .ok src) (hf : src.isFile = false) :
    src.data = [] := by
  obtain ⟨_, _, hcarries⟩ := observe_ok h
  unfold Source.Carries at hcarries
  split at hcarries
  · exact hcarries.2
  · exact hcarries.2
  · rename_i hft
    simp [Source.isFile, hft] at hf

/-- The sources of a run are unchanged when its regular files are. -/
theorem unchanged_iff {ps : List Path} {srcs : List Source}
    (h : List.Forall₂ (fun p src => observe os root bs p = .ok src) ps srcs) :
    (∀ src ∈ srcs, src.Unchanged) ↔ ∀ src ∈ srcs, src.isFile = true → src.data.length = src.metadata.size := by
  refine forall₂_congr fun src hsrc => ?_
  obtain ⟨p, _, hp⟩ := Except.mem_of_mapM_ok (Except.mapM_eq_ok.2 h) hsrc
  unfold Source.Unchanged Source.entry
  cases hf : src.isFile with
  | true => simp
  | false => simp [observe_not_file hp hf]

namespace ReadState

/-- The sources of a run can be fed: with a block size of zero they hold nothing. -/
def Feedable (blockSize : Nat) (srcs : List Source) : Prop := 0 < blockSize ∨ ∀ src ∈ srcs, src.data = []

/-- **The entries and the stream of a run**, from its sources. -/
theorem foldl_add : ∀ {srcs : List Source} {s : ReadState}, s.Short bs → Feedable bs srcs →
    srcs.foldl (add bs) s =
      { s.feed bs (Source.stream srcs) with files := s.files ++ Source.entries s.streamPosition srcs }
  | [], s, hs, _ => by simp [feed_nil hs, Source.entries]
  | src :: srcs, s, hs, hz => by
    have hz' : Feedable bs srcs := hz.imp_right fun h x hx => h x (List.mem_cons_of_mem _ hx)
    have hfeed : (s.feed bs src.data).feed bs (Source.stream srcs) = s.feed bs (Source.stream (src :: srcs)) := by
      rcases hz with h | h
      · exact feed_feed h s _ _
      · have h0 : src.data = [] := h src List.mem_cons_self
        rw [Source.stream_cons, h0, feed_nil hs, List.nil_append]
    rw [List.foldl_cons, foldl_add (add_short s src) hz', ← hfeed]
    simp [add, push, feed, Source.entries]

end ReadState

theorem feedable_of_observe {ps : List Path} {srcs : List Source}
    (h : List.Forall₂ (fun p src => observe os root bs p = .ok src) ps srcs) : ReadState.Feedable bs srcs := by
  rcases Nat.eq_zero_or_pos bs with rfl | hpos
  · refine .inr fun src hsrc => ?_
    obtain ⟨p, _, hp⟩ := Except.mem_of_mapM_ok (Except.mapM_eq_ok.2 h) hsrc
    exact observe_zero hp
  · exact .inl hpos

/-! ## Files that do not change -/

/-- No file changes while it is read: as many bytes are read of it as its metadata says. -/
def Os.Still (os : Os) : Prop := ∀ {p m f}, os.symlinkMetadata p = .ok m → m.ftype = .file → os.openFile p = .ok f →
  ∀ n, 0 < n → f.err n = none → (f.reads n).flatten.length = m.size

theorem observe_unchanged (hos : os.Still) (hbs : 0 < bs) {p : Path} {src : Source}
    (h : observe os root bs p = .ok src) : src.Unchanged := by
  obtain ⟨hm, _, hcarries⟩ := observe_ok h
  unfold Source.Unchanged Source.entry
  cases hf : src.isFile with
  | false => simp [observe_not_file h hf]
  | true =>
    have hft : src.metadata.ftype = .file := by simpa [Source.isFile] using hf
    unfold Source.Carries at hcarries
    rw [hft] at hcarries
    obtain ⟨_, file, hfile, herr, hdata⟩ := hcarries
    rw [hdata, if_pos rfl]
    exact hos hm hft hfile bs hbs herr

/-! ## A directory of regular files -/

/-- A file read in full buffers. -/
def OpenFile.ofContent (content : Bytes) : OpenFile where
  reads n := if n = 0 then [] else Chunk.chunks n content
  err _ := none
  fits n d hd := by
    split at hd
    · cases hd
    · exact Chunk.length_of_mem_chunks (by omega) hd
  empty := rfl

/-- Regular files with the sizes that `lstat` gives and their contents. -/
def Os.ofFiles (files : List (Path × Nat × Bytes)) : Os where
  symlinkMetadata p := match files.find? (·.1 = p) with
    | some f => .ok ⟨.file, f.2.1, 0, 0o644⟩
    | none => .error .noent
  readLink _ := .error .inval
  openFile p := match files.find? (·.1 = p) with
    | some f => .ok (.ofContent f.2.2)
    | none => .error .noent

theorem Os.ofFiles_still {files : List (Path × Nat × Bytes)} (h : ∀ f ∈ files, f.2.2.length = f.2.1) :
    (Os.ofFiles files).Still := by
  intro p m f hm _ hf n hn _
  unfold Os.ofFiles at hm hf
  dsimp only at hm hf
  cases hfind : files.find? (·.1 = p) with
  | none => rw [hfind] at hm; cases hm
  | some x =>
    rw [hfind] at hm hf
    cases hm
    cases hf
    show (if n = 0 then [] else Chunk.chunks n x.2.2).flatten.length = x.2.1
    rw [if_neg (by omega), Chunk.flatten_chunks]
    exact h x (List.mem_of_find?_eq_some hfind)

end Cryo
