import Cryo.Compress

/-!
# The threads of a compression

`initialize_compression` as its threads run it: the main thread reads the files and sends raw blocks, the pool processes
them, the writer receives the processed blocks. The threads share two channels and take their steps in any order; a
`Move` says which one steps next. A step of a worker or of the writer may also be a failure or a panic, reads fail as
the operating system says, and writes as the plan of the file says.

A channel hands over its messages in the order they were sent. A send whose receiver is gone is lost: the main thread
does not notice it on a raw block, a worker fails on a processed one.

* `Threads.inv_step`, `Threads.inv_run`: the invariant that every move, and so every schedule, keeps.
* `compress_all_or_nothing`: a call that returns `Ok` has written everything it read, one that returns `Err` leaves what
  stood at the archive's path.
* `Returns.initializeCompression`: what a call that returned `Ok` wrote is what `initializeCompression` writes.
-/

namespace Cryo

open Posix

variable (K : Crates)

/-! ## Before the threads start -/

/-- The part of the call before the threads start, with the content at the archive's path. The file is created where
none is. -/
def openArchive (setup : Setup) (args : CompressArgs) :
    Act (Option Bytes) CryoErrors (Path × List Path × ArchiveWriter) := do
  let (root, queue) ← Act.lift (prepare K setup args)
  let cipher ← Act.lift (Cipher.new K setup.prompts (args.header setup) args.confirm)
  let existing ← Act.read id
  match existing, setup.createNew (archiveFilename args.archiveName) with
  | none, some faults => do
    Act.modify fun _ => some []
    let archive ← Act.lift (ArchiveWriter.writeHeader K (args.header setup) cipher (Sink.create faults))
    Act.modify fun _ => some archive.writer.bytes
    pure (root, queue, archive)
  | _, _ => Act.throw .invalidPath

/-- `read_file_to_bytes` up to its loop: the open file, if there is something to read. -/
def openPath (os : Os) (p root : Path) (blockSize : Nat) : ReadM (Option OpenFile) := do
  let fmetadata ← Act.lift (readFailed p (os.symlinkMetadata p))
  let stripped ← Act.lift (stripRoot p root)
  if fmetadata.ftype ≠ .file then do
    handleNonRegularFiles os fmetadata.ftype fmetadata root p
    pure none
  else do
    Act.modify fun s => s.push {
      path := stripped
      ftype := fmetadata.ftype
      streamOffset := s.streamPosition
      size := fmetadata.size
      symlinkTarget := none
      timestamp := asU64 fmetadata.mtime
      permissions := fmetadata.mode }
    let file ← Act.lift (readFailed p (os.openFile p))
    Act.lift (allocBuffer blockSize)
    pure (some file)

theorem readFileToBytes_openPath (os : Os) (p root : Path) (bs : Nat) : readFileToBytes os p root bs = (do
    match ← openPath os p root bs with
    | some file => readLoop p file bs
    | none => pure ()) := by
  unfold readFileToBytes openPath
  simp only [bind_assoc]
  congr 1
  funext m
  congr 1
  funext stripped
  split <;> simp [bind_assoc]

/-- What the writer does with one message: go on with a queue and an awaited number, or stop. -/
def receiveMessage (indexNonce : Nonce) (message : WriterMessage) (blockQueue : List ProcessedBlock)
    (expectedId : Nat) : WriterM (Option (List ProcessedBlock × Nat)) :=
  match message with
  | .block b => do
    let s ← drainQueue (Resequence.insert ProcessedBlock.id b blockQueue) expectedId
    pure (some s)
  | .finalize files totalStreamSize => do
    finalize K indexNonce files totalStreamSize
    pure none

namespace Threads

/-! ## The states of the threads -/

/-- What the threads were started with. -/
structure Job where
  os : Os
  root : Path
  blockSize : Nat
  archive : ArchiveWriter
  indexNonce : Nonce

/-- Where the main thread is. -/
inductive Main where
  /-- Before the next path. -/
  | next (queue : List Path)
  /-- In the loop over an open file. -/
  | reading (p : Path) (pieces : List Bytes) (err : Option Errno) (queue : List Path)
  /-- After the loop over the paths. -/
  | done (readResult : Result Unit)
  /-- At the join of the pool, with the raw channel closed. -/
  | joining (readResult : Result Unit)
  /-- At the join of the writer. -/
  | waiting
  /-- At `remove_file`. -/
  | cleanup (e : CryoErrors)
  | returned (result : Result Unit)
  | panicked (message : String)

/-- The pool: the raw channel, the blocks its tasks are processing and sending, how tasks failed, and its result once
all tasks have ended. -/
structure Pool where
  raw : List RawBlock
  working : List RawBlock
  sending : List ProcessedBlock
  failures : List Halt
  result : Option (Except Halt Unit)

inductive Writer where
  | running (blockQueue : List ProcessedBlock) (expectedId : Nat) (arch : ArchiveWriter)
  | ended (result : Except Halt Unit) (arch : ArchiveWriter)

/-- All of it, with the content at the archive's path, the main thread's variables and the raw blocks it is about to
send. -/
structure State where
  path : Option Bytes
  main : Main
  reader : ReadState
  outbox : List RawBlock
  pool : Pool
  messages : List WriterMessage
  writer : Writer

/-- The raw channel has lost its sender. -/
def Main.closed : Main → Bool
  | .next _ | .reading .. | .done _ => false
  | _ => true

/-- The call is over, and with it the main thread's sender of messages. -/
def Main.over : Main → Bool
  | .returned _ | .panicked _ => true
  | _ => false

def Writer.arch : Writer → ArchiveWriter
  | .running _ _ arch => arch
  | .ended _ arch => arch

/-- `join().map_err(|_| ThreadError)??`. -/
def joined : Except Halt Unit → Result Unit
  | .ok () => .ok ()
  | .error (.err e) => .error e
  | .error (.panic _) => .error .threadError

/-! ## The steps -/

variable {K}

/-- `raw_tx.send`, whose failure nobody sees. -/
def Pool.offer (b : RawBlock) (pool : Pool) : Pool :=
  if pool.result.isNone then { pool with raw := pool.raw ++ [b] } else pool

@[simp] theorem Pool.offer_result (b : RawBlock) (pool : Pool) : (pool.offer b).result = pool.result := by
  unfold offer; split <;> rfl

@[simp] theorem Pool.offer_failures (b : RawBlock) (pool : Pool) : (pool.offer b).failures = pool.failures := by
  unfold offer; split <;> rfl

/-- A worker's task on a raw block. -/
def Job.work (K : Crates) (job : Job) (nonce : Nonce) (b : RawBlock) : Result ProcessedBlock :=
  workerTask K job.archive.cipher job.archive.header.archiveId job.archive.header.compression
    job.archive.header.compressionLevel nonce b

/-- The next step of the main thread: first what it has to send. -/
def mainStep (job : Job) (s : State) : Option State :=
  match s.outbox with
  | b :: outbox => some { s with outbox := outbox, pool := s.pool.offer b }
  | [] =>
    match s.main with
    | .next [] => some { s with main := .done (.ok ()), outbox := s.reader.finalBlock }
    | .next (p :: queue) =>
      match openPath job.os p job.root job.blockSize s.reader with
      | (.ok none, reader) => some { s with reader := reader, main := .next queue }
      | (.ok (some file), reader) => some { s with
          reader := reader
          main := .reading p (file.reads job.blockSize) (file.err job.blockSize) queue }
      | (.error (.err e), reader) => some { s with reader := reader, main := .done (.error e) }
      | (.error (.panic message), reader) => some { s with reader := reader, main := .panicked message }
    | .reading p (d :: pieces) err queue =>
      let reader := s.reader.consume job.blockSize d
      some { s with
        reader := reader
        outbox := reader.sent.drop s.reader.sent.length
        main := .reading p pieces err queue }
    | .reading p [] (some e) _ => some { s with main := .done (.error (.readFailed p e)) }
    | .reading _ [] none queue => some { s with main := .next queue }
    | .done readResult => some { s with main := .joining readResult }
    | .joining readResult =>
      match s.pool.result, readResult with
      | none, _ => none
      | some result, _ =>
        match joined result, readResult, s.writer with
        | .error e, _, _ => some { s with main := .cleanup e }
        | .ok (), .error e, _ => some { s with main := .cleanup e }
        | .ok (), .ok (), .ended .. => some { s with main := .cleanup .threadError }
        | .ok (), .ok (), .running .. => some { s with
            messages := s.messages ++ [.finalize s.reader.files s.reader.streamPosition]
            main := .waiting }
    | .waiting =>
      match s.writer with
      | .running .. => none
      | .ended result _ =>
        match joined result with
        | .ok () => some { s with main := .returned (.ok ()) }
        | .error e => some { s with main := .cleanup e }
    | .cleanup e => some { s with path := none, main := .returned (.error e) }
    | .returned _ | .panicked _ => none

/-- Which thread takes its next step, and how where that is not determined. -/
inductive Move where
  | main
  /-- A task of the pool takes the next raw block. -/
  | take
  | process (b : RawBlock) (nonce : Nonce)
  | send (b : ProcessedBlock)
  /-- A task fails before or while it processes its block, also by a panic. -/
  | failProcess (b : RawBlock) (h : Halt)
  /-- A task fails with its processed block. -/
  | failSend (b : ProcessedBlock) (h : Halt)
  /-- The pool ends, when no task is left. -/
  | endPool (result : Except Halt Unit)
  | receive
  | panicWriter (message : String)
  /-- The writer finds its channel empty and closed. -/
  | disconnect

/-- When the pool ends with `result`: with `Ok` after all raw blocks, with the failure of a task at any time. -/
def State.canEnd (s : State) : Except Halt Unit → Bool
  | .ok () => s.main.closed && s.pool.raw.isEmpty && s.pool.failures.isEmpty
  | .error h => s.pool.failures.contains h

def step (K : Crates) (job : Job) (s : State) : Move → Option State
  | .main => mainStep job s
  | .take =>
    match s.pool.result, s.pool.raw with
    | none, b :: raw => some { s with pool := { s.pool with raw := raw, working := b :: s.pool.working } }
    | _, _ => none
  | .process b nonce =>
    if b ∈ s.pool.working then
      match job.work K nonce b with
      | .ok p => some { s with
          pool := { s.pool with working := s.pool.working.erase b, sending := p :: s.pool.sending } }
      | .error e => some { s with
          pool := { s.pool with working := s.pool.working.erase b, failures := .err e :: s.pool.failures } }
    else none
  | .send b =>
    if b ∈ s.pool.sending then
      match s.writer with
      | .running .. => some { s with
          pool := { s.pool with sending := s.pool.sending.erase b }
          messages := s.messages ++ [.block b] }
      | .ended .. => some { s with
          pool := { s.pool with sending := s.pool.sending.erase b, failures := .err .threadError :: s.pool.failures } }
    else none
  | .failProcess b h =>
    if b ∈ s.pool.working then some { s with
      pool := { s.pool with working := s.pool.working.erase b, failures := h :: s.pool.failures } }
    else none
  | .failSend b h =>
    if b ∈ s.pool.sending then some { s with
      pool := { s.pool with sending := s.pool.sending.erase b, failures := h :: s.pool.failures } }
    else none
  | .endPool result =>
    if s.pool.result.isNone ∧ s.pool.working = [] ∧ s.pool.sending = [] ∧ s.canEnd result then
      some { s with pool := { s.pool with result := some result } }
    else none
  | .receive =>
    match s.writer, s.messages with
    | .running blockQueue expectedId arch, message :: messages =>
      match receiveMessage K job.indexNonce message blockQueue expectedId arch with
      | (.ok (some r), arch') => some { s with
          messages := messages
          writer := .running r.1 r.2 arch'
          path := s.path.map fun _ => arch'.writer.bytes }
      | (.ok none, arch') => some { s with
          messages := messages
          writer := .ended (.ok ()) arch'
          path := s.path.map fun _ => arch'.writer.bytes }
      | (.error e, arch') => some { s with
          messages := messages
          writer := .ended (.error (.err e)) arch'
          path := s.path.map fun _ => arch'.writer.bytes }
    | _, _ => none
  | .panicWriter message =>
    match s.writer with
    | .running _ _ arch => some { s with writer := .ended (.error (.panic message)) arch }
    | .ended .. => none
  | .disconnect =>
    match s.writer, s.messages with
    | .running _ _ arch, [] =>
      if s.main.over ∧ s.pool.result.isSome then some { s with writer := .ended (.ok ()) arch } else none
    | _, _ => none

/-- The threads when they start. -/
def spawn (job : Job) (queue : List Path) (path : Option Bytes) : State where
  path := path
  main := .next queue
  reader := .start
  outbox := []
  pool := ⟨[], [], [], [], none⟩
  messages := []
  writer := .running [] job.archive.index.block.length job.archive

/-- The moves of a schedule, one after another. -/
def run (K : Crates) (job : Job) : List Move → State → Option State
  | [], s => some s
  | move :: moves, s => (step K job s move).bind (run K job moves)

/-! ## What the threads have done -/

/-- The processed blocks among messages. -/
def blocksOf (messages : List WriterMessage) : List ProcessedBlock :=
  messages.filterMap fun
    | .block b => some b
    | .finalize .. => none

@[simp] theorem blocksOf_nil : blocksOf [] = [] := rfl
@[simp] theorem blocksOf_block (b : ProcessedBlock) (ms : List WriterMessage) :
    blocksOf (.block b :: ms) = b :: blocksOf ms := rfl
@[simp] theorem blocksOf_finalize (files : List FileEntry) (n : Nat) (ms : List WriterMessage) :
    blocksOf (.finalize files n :: ms) = blocksOf ms := rfl
@[simp] theorem blocksOf_append (ms ms' : List WriterMessage) : blocksOf (ms ++ ms') = blocksOf ms ++ blocksOf ms' :=
  List.filterMap_append

/-- Every block handed to the pool is in the raw channel, with a task, or processed; every processed block is with a
task, in the channel of the writer, or received. -/
def Accounted (K : Crates) (job : Job) (pool : Pool) (messages : List WriterMessage) (handed : List RawBlock)
    (received : List ProcessedBlock) : Prop :=
  ∃ pairs : List (RawBlock × ProcessedBlock), (∀ x ∈ pairs, ∃ nonce, job.work K nonce x.1 = .ok x.2) ∧
    (pool.raw ++ pool.working ++ pairs.map Prod.fst).Perm handed ∧
    (pool.sending ++ blocksOf messages ++ received).Perm (pairs.map Prod.snd)

section
variable {job : Job} {pool : Pool} {messages : List WriterMessage} {handed : List RawBlock}
  {received : List ProcessedBlock}

theorem Accounted.offer (h : Accounted K job pool messages handed received) (hresult : pool.result = none)
    (b : RawBlock) : Accounted K job (pool.offer b) messages (handed ++ [b]) received := by
  obtain ⟨pairs, hwork, hraw, hdone⟩ := h
  refine ⟨pairs, hwork, ?_, ?_⟩
  · unfold Pool.offer
    rw [hresult]
    rw [List.perm_iff_count] at hraw ⊢
    intro a
    have := hraw a
    simp only [Option.isNone_none, if_true, List.count_append] at this ⊢
    omega
  · unfold Pool.offer
    rw [hresult]
    exact hdone

theorem Accounted.take {b : RawBlock} {raw : List RawBlock} (h : Accounted K job pool messages handed received)
    (hb : pool.raw = b :: raw) :
    Accounted K job { pool with raw := raw, working := b :: pool.working } messages handed received := by
  obtain ⟨pairs, hwork, hraw, hdone⟩ := h
  refine ⟨pairs, hwork, ?_, hdone⟩
  rw [hb] at hraw
  exact (List.perm_middle.append_right _).trans hraw

theorem Accounted.process {b : RawBlock} {p : ProcessedBlock} {nonce : Nonce}
    (h : Accounted K job pool messages handed received) (hb : b ∈ pool.working) (hp : job.work K nonce b = .ok p) :
    Accounted K job { pool with working := pool.working.erase b, sending := p :: pool.sending } messages handed
      received := by
  obtain ⟨pairs, hwork, hraw, hdone⟩ := h
  refine ⟨(b, p) :: pairs, ?_, ?_, hdone.cons p⟩
  · intro x hx
    rcases List.mem_cons.1 hx with rfl | hx
    · exact ⟨nonce, hp⟩
    · exact hwork x hx
  · have herase := List.perm_cons_erase hb
    rw [List.perm_iff_count] at hraw herase ⊢
    intro a
    have h1 := hraw a
    have h2 := herase a
    simp only [List.map_cons, List.count_append, List.count_cons] at h1 h2 ⊢
    omega

theorem Accounted.send {b : ProcessedBlock} (h : Accounted K job pool messages handed received)
    (hb : b ∈ pool.sending) :
    Accounted K job { pool with sending := pool.sending.erase b } (messages ++ [.block b]) handed received := by
  obtain ⟨pairs, hwork, hraw, hdone⟩ := h
  refine ⟨pairs, hwork, hraw, List.Perm.trans ?_ hdone⟩
  have herase := List.perm_cons_erase hb
  rw [List.perm_iff_count] at herase ⊢
  intro a
  have h2 := herase a
  simp only [blocksOf_append, blocksOf_block, blocksOf_nil, List.count_append, List.count_cons, List.count_nil] at h2 ⊢
  omega

theorem Accounted.receive {b : ProcessedBlock} {ms : List WriterMessage}
    (h : Accounted K job pool (.block b :: ms) handed received) :
    Accounted K job pool ms handed (received ++ [b]) := by
  obtain ⟨pairs, hwork, hraw, hdone⟩ := h
  refine ⟨pairs, hwork, hraw, List.Perm.trans ?_ hdone⟩
  rw [List.perm_iff_count]
  intro a
  simp only [blocksOf_block, List.count_append, List.count_cons, List.count_nil]
  omega

/-- Only the blocks among the messages count. -/
theorem Accounted.of_blocks {ms : List WriterMessage} (h : Accounted K job pool messages handed received)
    (hms : blocksOf ms = blocksOf messages) : Accounted K job pool ms handed received := by
  obtain ⟨pairs, hwork, hraw, hdone⟩ := h
  exact ⟨pairs, hwork, hraw, hms ▸ hdone⟩

end

/-- What a call that returns `Ok` has done: it read everything, every raw block was processed, and the processed blocks
were written once each, in the order of their numbers, with all entries in the index. -/
structure Completed (K : Crates) (job : Job) (queue : List Path) (reader : ReadState) (processed : List ProcessedBlock)
    (arch : ArchiveWriter) : Prop where
  read : readFiles job.os job.root job.blockSize queue .start = (.ok (), reader)
  ids : reader.produced.map RawBlock.id = List.range reader.produced.length
  worked : List.Forall₂ (fun raw b => ∃ nonce, job.work K nonce raw = .ok b) reader.produced processed
  written : ∃ mid, writeBlocks processed job.archive = (.ok (), mid) ∧
    finalize K job.indexNonce reader.files reader.streamPosition mid = (.ok (), arch)

/-- The raw blocks of a new archive are numbered from zero. -/
theorem produced_ids {os : Os} {root : Path} {bs : Nat} {queue : List Path} {reader : ReadState}
    (h : readFiles os root bs queue .start = (.ok (), reader)) :
    reader.produced.map RawBlock.id = List.range reader.produced.length := by
  have hshort : ReadState.start.Short bs := fun h => h
  obtain ⟨srcs, hobs, rfl⟩ := readFiles_ok hshort h
  rw [ReadState.foldl_add hshort (feedable_of_observe hobs)]
  have hproduced : (ReadState.feed bs .start (Source.stream srcs)).produced = _ :=
    ReadState.produced_feed (Source.stream srcs)
  show (ReadState.feed bs .start (Source.stream srcs)).produced.map RawBlock.id
    = List.range (ReadState.feed bs .start (Source.stream srcs)).produced.length
  rw [hproduced, List.range_eq_range']
  simp [ReadState.start, numbered_ids]

/-- **Everything received is everything written**: once the pool is done and the writer has received all, in whatever
order, the blocks were written in the order of their numbers. -/
theorem Accounted.completed {job : Job} {pool : Pool} {queue : List Path} {reader : ReadState}
    {received : List ProcessedBlock} {r : List ProcessedBlock × Nat} {mid arch : ArchiveWriter}
    (hnew : job.archive.index.block = [])
    (hread : readFiles job.os job.root job.blockSize queue .start = (.ok (), reader))
    (h : Accounted K job pool [] reader.produced received) (hraw : pool.raw = []) (hworking : pool.working = [])
    (hsending : pool.sending = [])
    (habsorb : absorb received ([], job.archive.index.block.length) job.archive = (.ok r, mid))
    (hfinal : finalize K job.indexNonce reader.files reader.streamPosition mid = (.ok (), arch)) :
    ∃ processed, Completed K job queue reader processed arch := by
  obtain ⟨pairs, hwork, hfst, hsnd⟩ := h
  rw [hraw, hworking] at hfst
  rw [hsending] at hsnd
  -- the pairs, put in the order of the raw blocks
  have hpairs : List.Forall₂ (fun raw x => raw = x.1 ∧ ∃ nonce, job.work K nonce raw = .ok x.2) (pairs.map Prod.fst)
      pairs := List.forall₂_map_left_iff.2 (List.forall₂_same.2 fun x hx => ⟨rfl, hwork x hx⟩)
  obtain ⟨sorted, hsorted, hperm⟩ := List.perm_comp_forall₂ hfst.symm hpairs
  have hprocessed : List.Forall₂ (fun raw b => ∃ nonce, job.work K nonce raw = .ok b) reader.produced
      (sorted.map Prod.snd) := List.forall₂_map_right_iff.2 (hsorted.imp fun _ _ hx => hx.2)
  have hids : (sorted.map Prod.snd).map ProcessedBlock.id
      = List.range' job.archive.index.block.length (sorted.map Prod.snd).length := by
    rw [hnew, ids_eq (hprocessed.imp fun _ _ ⟨_, hb⟩ => (workerTask_ok hb).1), produced_ids hread,
      ← hprocessed.length_eq, List.range_eq_range']
    rfl
  have hreceived : received.Perm (sorted.map Prod.snd) := hsnd.trans (hperm.map Prod.snd).symm
  rw [absorb_perm hids hreceived] at habsorb
  obtain ⟨_, mid', hblocks, hpure⟩ := Act.bind_eq_ok.1 habsorb
  cases hpure
  exact ⟨sorted.map Prod.snd, hread, produced_ids hread, hprocessed, mid, hblocks, hfinal⟩

/-! ## The invariant -/

/-- The rest of the loop over an open file. -/
def readPieces (p : Path) (blockSize : Nat) (pieces : List Bytes) (err : Option Errno) : ReadM Unit := fun s =>
  let s := pieces.foldl (ReadState.consume blockSize) s
  match err with
  | some e => (.error (.err (.readFailed p e)), s)
  | none => (.ok (), s)

/-- What is left to read continues what was read, and what was handed to the pool or is about to be is what the reader
has produced. -/
def Reading (job : Job) (queue : List Path) (handed : List RawBlock) (s : State) : Prop :=
  match s.main with
  | .next ps =>
    readFiles job.os job.root job.blockSize queue .start = readFiles job.os job.root job.blockSize ps s.reader ∧
      handed ++ s.outbox = s.reader.sent
  | .reading p pieces err ps =>
    readFiles job.os job.root job.blockSize queue .start = (do
      readPieces p job.blockSize pieces err
      readFiles job.os job.root job.blockSize ps : ReadM Unit) s.reader ∧ handed ++ s.outbox = s.reader.sent
  | .done (.ok ()) | .joining (.ok ()) | .waiting =>
    readFiles job.os job.root job.blockSize queue .start = (.ok (), s.reader) ∧ handed ++ s.outbox = s.reader.produced
  | _ => True

/-- `Finalize` is sent last, when the pool is done, and the writer returns `Ok` only after it. -/
def Mailed (K : Crates) (job : Job) (received : List ProcessedBlock) (s : State) : Prop :=
  match s.main with
  | .next _ | .reading .. | .done _ | .joining _ =>
    (∀ message ∈ s.messages, ∃ b, message = .block b) ∧ ∀ arch, s.writer ≠ .ended (.ok ()) arch
  | .waiting =>
    s.pool.result = some (.ok ()) ∧
    match s.writer with
    | .running .. => ∃ bs : List ProcessedBlock,
        s.messages = bs.map .block ++ [.finalize s.reader.files s.reader.streamPosition]
    | .ended (.ok ()) arch => s.messages = [] ∧
        ∃ r mid, absorb received ([], job.archive.index.block.length) job.archive = (.ok r, mid) ∧
          finalize K job.indexNonce s.reader.files s.reader.streamPosition mid = (.ok (), arch)
    | .ended (.error _) _ => True
  | _ => True

/-- The pool ends with no task left: with `Ok` only after every raw block, else with the failure of a task. -/
def PoolEnd (s : State) : Prop :=
  match s.pool.result with
  | none => True
  | some result => s.pool.working = [] ∧ s.pool.sending = [] ∧
    match result with
    | .ok () => s.main.closed = true ∧ s.pool.raw = [] ∧ s.pool.failures = []
    | .error _ => s.pool.failures ≠ []

/-- The archive has been removed. -/
def Main.removed : Main → Bool
  | .returned (.error _) => true
  | _ => false

/-- **The invariant**, with the raw blocks handed to the pool and the processed blocks the writer received. -/
structure Inv (K : Crates) (job : Job) (queue : List Path) (handed : List RawBlock) (received : List ProcessedBlock)
    (s : State) : Prop where
  path : s.path = if s.main.removed then none else some s.writer.arch.writer.bytes
  outbox : s.main.closed = true → s.outbox = []
  reading : Reading job queue handed s
  accounts : s.pool.failures = [] → Accounted K job s.pool s.messages handed received
  pool : PoolEnd s
  absorbed : ∀ q e arch, s.writer = .running q e arch →
    absorb received ([], job.archive.index.block.length) job.archive = (.ok (q, e), arch)
  mailed : Mailed K job received s
  completed : s.main = .returned (.ok ()) → ∃ reader processed arch, s.writer = .ended (.ok ()) arch ∧
    Completed K job queue reader processed arch

section
variable {job : Job} {queue : List Path} {handed : List RawBlock} {received : List ProcessedBlock} {s s' : State}

/-- The threads start with the invariant. -/
theorem inv_spawn (job : Job) (queue : List Path) :
    Inv K job queue [] [] (spawn job queue (some job.archive.writer.bytes)) where
  path := rfl
  outbox h := by cases h
  reading := ⟨rfl, rfl⟩
  accounts _ := ⟨[], by simp, .refl _, .refl _⟩
  pool := trivial
  absorbed q e arch h := by cases h; rfl
  mailed := ⟨by simp [spawn], by simp [spawn]⟩
  completed h := by cases h

/-- While a task is there the pool has not ended. -/
theorem Inv.running (h : Inv K job queue handed received s) (htask : s.pool.working ≠ [] ∨ s.pool.sending ≠ []) :
    s.pool.result = none := by
  have hpool := h.pool
  unfold PoolEnd at hpool
  cases hr : s.pool.result with
  | none => rfl
  | some result =>
    rw [hr] at hpool
    exact (htask.elim (· hpool.1) (· hpool.2.1)).elim

/-- Before the pool has ended only blocks are sent. -/
theorem Inv.mailed_of_pool (h : Inv K job queue handed received s) (hresult : s.pool.result = none) {pool : Pool}
    {messages : List WriterMessage}
    (hmessages : ∀ message ∈ messages, message ∈ s.messages ∨ ∃ b, message = .block b) :
    Mailed K job received { s with pool := pool, messages := messages } := by
  have hmailed := h.mailed
  unfold Mailed at hmailed ⊢
  cases hm : s.main with
  | next | reading | done | joining =>
    simp only [hm] at hmailed ⊢
    exact ⟨fun message hmem => (hmessages message hmem).elim (hmailed.1 message) id, hmailed.2⟩
  | waiting =>
    rw [hm] at hmailed
    exact absurd hmailed.1 (by rw [hresult]; simp)
  | cleanup | returned | panicked => trivial

/-- A step of a pool that does not end. -/
theorem Inv.of_pool (h : Inv K job queue handed received s) (hresult : s.pool.result = none) {pool : Pool}
    (hresult' : pool.result = none) {messages : List WriterMessage}
    (hmessages : ∀ message ∈ messages, message ∈ s.messages ∨ ∃ b, message = .block b)
    (hacc : pool.failures = [] → Accounted K job pool messages handed received) :
    Inv K job queue handed received { s with pool := pool, messages := messages } where
  path := h.path
  outbox := h.outbox
  reading := h.reading
  accounts := hacc
  pool := by
    show PoolEnd { s with pool := pool, messages := messages }
    unfold PoolEnd
    rw [show ({ s with pool := pool, messages := messages } : State).pool.result = none from hresult']
    trivial
  absorbed := h.absorbed
  mailed := h.mailed_of_pool hresult hmessages
  completed := h.completed

/-- A task that fails ends the accounting. -/
theorem Inv.of_failure (h : Inv K job queue handed received s) (hresult : s.pool.result = none) {pool : Pool}
    (hresult' : pool.result = none) (hfailures : pool.failures ≠ []) :
    Inv K job queue handed received { s with pool := pool } :=
  h.of_pool hresult hresult' (fun _ hmem => .inl hmem) fun hnil => absurd hnil hfailures

theorem inv_take (h : Inv K job queue handed received s) (hs : step K job s .take = some s') :
    Inv K job queue handed received s' := by
  simp only [step] at hs
  split at hs
  · rename_i b raw hresult hraw
    cases hs
    refine h.of_pool hresult ?_ (fun _ hmem => .inl hmem) fun hf => (h.accounts hf).take hraw
    exact hresult
  · cases hs

theorem inv_process {b : RawBlock} {nonce : Nonce} (h : Inv K job queue handed received s)
    (hs : step K job s (.process b nonce) = some s') : Inv K job queue handed received s' := by
  simp only [step] at hs
  split at hs
  · rename_i hb
    have hresult := h.running (.inl (List.ne_nil_of_mem hb))
    split at hs
    · rename_i p hp
      cases hs
      refine h.of_pool hresult ?_ (fun _ hmem => .inl hmem) fun hf => (h.accounts hf).process hb hp
      exact hresult
    · cases hs
      exact h.of_failure hresult hresult (by simp)
  · cases hs

theorem inv_send {b : ProcessedBlock} (h : Inv K job queue handed received s)
    (hs : step K job s (.send b) = some s') : Inv K job queue handed received s' := by
  simp only [step] at hs
  split at hs
  · rename_i hb
    have hresult := h.running (.inr (List.ne_nil_of_mem hb))
    split at hs
    · cases hs
      refine h.of_pool hresult ?_ (fun message hmem => ?_) fun hf => (h.accounts hf).send hb
      · exact hresult
      · rcases List.mem_append.1 hmem with hmem | hmem
        · exact .inl hmem
        · exact .inr ⟨b, List.mem_singleton.1 hmem⟩
    · cases hs
      exact h.of_failure hresult hresult (by simp)
  · cases hs

theorem inv_failProcess {b : RawBlock} {e : Halt} (h : Inv K job queue handed received s)
    (hs : step K job s (.failProcess b e) = some s') : Inv K job queue handed received s' := by
  simp only [step] at hs
  split at hs
  · rename_i hb
    have hresult := h.running (.inl (List.ne_nil_of_mem hb))
    cases hs
    exact h.of_failure hresult hresult (by simp)
  · cases hs

theorem inv_failSend {b : ProcessedBlock} {e : Halt} (h : Inv K job queue handed received s)
    (hs : step K job s (.failSend b e) = some s') : Inv K job queue handed received s' := by
  simp only [step] at hs
  split at hs
  · rename_i hb
    have hresult := h.running (.inr (List.ne_nil_of_mem hb))
    cases hs
    exact h.of_failure hresult hresult (by simp)
  · cases hs

theorem inv_endPool {result : Except Halt Unit} (h : Inv K job queue handed received s)
    (hs : step K job s (.endPool result) = some s') : Inv K job queue handed received s' := by
  simp only [step] at hs
  split at hs
  · rename_i hend
    obtain ⟨hresult, hworking, hsending, hcan⟩ := hend
    rw [Option.isNone_iff_eq_none] at hresult
    cases hs
    refine ⟨h.path, h.outbox, h.reading, h.accounts, ⟨hworking, hsending, ?_⟩, h.absorbed,
      h.mailed_of_pool hresult fun _ hmem => .inl hmem, h.completed⟩
    cases result with
    | ok _ =>
      simp only [State.canEnd, Bool.and_eq_true, List.isEmpty_iff] at hcan
      exact ⟨hcan.1.1, hcan.1.2, hcan.2⟩
    | error e =>
      simp only [State.canEnd, List.contains_iff_mem] at hcan
      exact List.ne_nil_of_mem hcan
  · cases hs

/-! ### The writer -/

/-- A step of the writer, which was running. -/
theorem Inv.of_writer (h : Inv K job queue handed received s) {q : List ProcessedBlock} {e : Nat} {arch : ArchiveWriter}
    (hrunning : s.writer = .running q e arch) {writer : Writer} {messages : List WriterMessage} {path : Option Bytes}
    {received' : List ProcessedBlock} (hpath : path = s.path.map fun _ => writer.arch.writer.bytes)
    (hacc : s.pool.failures = [] → Accounted K job s.pool messages handed received')
    (habsorbed : ∀ q e arch, writer = .running q e arch →
      absorb received' ([], job.archive.index.block.length) job.archive = (.ok (q, e), arch))
    (hmailed : Mailed K job received' { s with messages := messages, writer := writer, path := path }) :
    Inv K job queue handed received' { s with messages := messages, writer := writer, path := path } where
  path := by
    show path = if s.main.removed then none else some writer.arch.writer.bytes
    rw [hpath, h.path]
    split <;> rfl
  outbox := h.outbox
  reading := h.reading
  accounts := hacc
  pool := h.pool
  absorbed := habsorbed
  mailed := hmailed
  completed hm := by
    obtain ⟨_, _, _, hended, _⟩ := h.completed hm
    rw [hrunning] at hended
    cases hended

/-- A writer that fails. -/
theorem Inv.of_writer_failed (h : Inv K job queue handed received s) {q : List ProcessedBlock} {e : Nat}
    {arch arch' : ArchiveWriter} (hrunning : s.writer = .running q e arch) {messages : List WriterMessage}
    {path : Option Bytes} (hpath : path = s.path.map fun _ => arch'.writer.bytes)
    {received' : List ProcessedBlock} (hmessages : ∀ message ∈ messages, message ∈ s.messages)
    (hacc : s.pool.failures = [] → Accounted K job s.pool messages handed received') (failure : Halt) :
    Inv K job queue handed received'
      { s with messages := messages, writer := .ended (.error failure) arch', path := path } := by
  refine h.of_writer hrunning hpath hacc (fun _ _ _ hw => by cases hw) ?_
  have hmailed := h.mailed
  unfold Mailed at hmailed ⊢
  cases hm : s.main with
  | next | reading | done | joining =>
    simp only [hm] at hmailed ⊢
    exact ⟨fun message hmem => hmailed.1 message (hmessages message hmem), by simp⟩
  | waiting =>
    simp only [hm] at hmailed ⊢
    exact ⟨hmailed.1, trivial⟩
  | cleanup | returned | panicked => trivial

theorem inv_panicWriter {message : String} (h : Inv K job queue handed received s)
    (hs : step K job s (.panicWriter message) = some s') : Inv K job queue handed received s' := by
  simp only [step] at hs
  split at hs
  · rename_i q e arch hrunning
    cases hs
    refine h.of_writer_failed hrunning ?_ (fun _ hmem => hmem) h.accounts (.panic message)
    rw [h.path, hrunning]
    split <;> rfl
  · cases hs

theorem inv_disconnect (h : Inv K job queue handed received s) (hs : step K job s .disconnect = some s') :
    Inv K job queue handed received s' := by
  simp only [step] at hs
  split at hs
  · rename_i q e arch hrunning hmessages
    split at hs
    · rename_i hover
      cases hs
      refine h.of_writer hrunning ?_ h.accounts (fun _ _ _ hw => by cases hw) ?_
      · rw [h.path, hrunning]
        split <;> rfl
      · unfold Mailed
        cases hm : s.main with
        | next | reading | done | joining | waiting | cleanup => rw [hm] at hover; cases hover.1
        | returned | panicked => trivial
    · cases hs
  · cases hs

/-- One more block is absorbed. -/
theorem absorb_concat : ∀ (bs : List ProcessedBlock) (b : ProcessedBlock) (s : List ProcessedBlock × Nat),
    absorb (bs ++ [b]) s = (do
      let s ← absorb bs s
      drainQueue (Resequence.insert ProcessedBlock.id b s.1) s.2)
  | [], b, s => by simp [absorb]
  | c :: bs, b, s => by simp [absorb, absorb_concat bs b]

theorem inv_receive (h : Inv K job queue handed received s) (hs : step K job s .receive = some s') :
    ∃ received', Inv K job queue handed received' s' := by
  simp only [step] at hs
  split at hs
  · rename_i q e arch message messages hrunning hmessages
    have hsub : ∀ m ∈ messages, m ∈ s.messages := fun m hmem => hmessages ▸ List.mem_cons_of_mem _ hmem
    have hmailed := h.mailed
    cases message with
    | block b =>
      have hacc : s.pool.failures = [] → Accounted K job s.pool messages handed (received ++ [b]) := fun hf =>
        (hmessages ▸ h.accounts hf).receive
      split at hs
      · rename_i r arch' hrun
        cases hs
        obtain ⟨_, _, hdrain, hpure⟩ := Act.bind_eq_ok.1 hrun
        cases hpure
        refine ⟨received ++ [b], h.of_writer hrunning rfl hacc ?_ ?_⟩
        · intro q' e' arch'' hw
          cases hw
          rw [absorb_concat, Act.bind_of_ok (h.absorbed q e arch hrunning), hdrain]
        · unfold Mailed at hmailed ⊢
          cases hm : s.main with
          | next | reading | done | joining =>
            simp only [hm] at hmailed ⊢
            exact ⟨fun m hmem => hmailed.1 m (hsub m hmem), by simp⟩
          | waiting =>
            simp only [hm, hrunning] at hmailed ⊢
            obtain ⟨hpool, bs, hbs⟩ := hmailed
            rw [hmessages] at hbs
            cases bs with
            | nil => cases hbs
            | cons b' bs => exact ⟨hpool, bs, (List.cons.inj hbs).2⟩
          | cleanup | returned | panicked => trivial
      · rename_i arch' hrun
        obtain ⟨_, _, _, hpure⟩ := Act.bind_eq_ok.1 hrun
        cases hpure
      · cases hs
        exact ⟨received ++ [b], h.of_writer_failed hrunning rfl hsub hacc _⟩
    | finalize files total =>
      have hacc : s.pool.failures = [] → Accounted K job s.pool messages handed received := fun hf =>
        (h.accounts hf).of_blocks (by rw [hmessages]; rfl)
      split at hs
      · rename_i r arch' hrun
        obtain ⟨_, _, _, hpure⟩ := Act.bind_eq_ok.1 hrun
        cases hpure
      · rename_i arch' hrun
        cases hs
        obtain ⟨_, _, hfinal, hpure⟩ := Act.bind_eq_ok.1 hrun
        cases hpure
        refine ⟨received, h.of_writer hrunning rfl hacc (fun _ _ _ hw => by cases hw) ?_⟩
        unfold Mailed at hmailed ⊢
        cases hm : s.main with
        | next | reading | done | joining =>
          simp only [hm] at hmailed
          obtain ⟨b, hb⟩ := hmailed.1 (.finalize files total) (by rw [hmessages]; exact List.mem_cons_self)
          cases hb
        | waiting =>
          simp only [hm, hrunning] at hmailed ⊢
          obtain ⟨hpool, bs, hbs⟩ := hmailed
          rw [hmessages] at hbs
          cases bs with
          | nil =>
            cases hbs
            exact ⟨hpool, rfl, (q, e), arch, h.absorbed q e arch hrunning, hfinal⟩
          | cons b' bs => cases hbs
        | cleanup | returned | panicked => trivial
      · cases hs
        exact ⟨received, h.of_writer_failed hrunning rfl hsub hacc _⟩
  · cases hs

/-! ### The main thread -/

/-- Sending one raw block. -/
theorem Inv.of_outbox (h : Inv K job queue handed received s) {b : RawBlock} {outbox : List RawBlock}
    (hb : s.outbox = b :: outbox) :
    Inv K job queue (handed ++ [b]) received { s with outbox := outbox, pool := s.pool.offer b } := by
  have hopen : s.main.closed = false := by
    cases hc : s.main.closed with
    | false => rfl
    | true =>
      have := h.outbox hc
      rw [hb] at this
      cases this
  have hpool := h.pool
  unfold PoolEnd at hpool
  refine ⟨h.path, fun hc => absurd hc (by simp [hopen]), ?_, fun hf => ?_, ?_, h.absorbed, ?_, h.completed⟩
  · have happ : handed ++ [b] ++ outbox = handed ++ s.outbox := by rw [hb]; simp
    have hreading := h.reading
    unfold Reading at hreading ⊢
    simp only [happ]
    exact hreading
  · rw [Pool.offer_failures] at hf
    cases hr : s.pool.result with
    | none => exact (h.accounts hf).offer hr b
    | some result =>
      rw [hr] at hpool
      cases result with
      | ok _ => rw [hopen] at hpool; cases hpool.2.2.1
      | error e => exact absurd hf hpool.2.2
  · show PoolEnd { s with outbox := outbox, pool := s.pool.offer b }
    cases hr : s.pool.result with
    | none =>
      unfold PoolEnd
      rw [show ({ s with outbox := outbox, pool := s.pool.offer b } : State).pool.result = none from
        (Pool.offer_result b s.pool).trans hr]
      trivial
    | some result =>
      have hsame : s.pool.offer b = s.pool := by unfold Pool.offer; rw [hr]; rfl
      rw [hsame]
      exact h.pool
  · have hmailed := h.mailed
    unfold Mailed at hmailed ⊢
    simp only [Pool.offer_result]
    exact hmailed

theorem mailed_open (hopen : s.main.closed = false) : Mailed K job received s ↔
    (∀ message ∈ s.messages, ∃ b, message = .block b) ∧ ∀ arch, s.writer ≠ .ended (.ok ()) arch := by
  unfold Mailed
  cases hm : s.main with
  | next | reading | done | joining => exact Iff.rfl
  | waiting | cleanup | returned | panicked => rw [hm] at hopen; cases hopen

theorem removed_of_open {main : Main} (h : main.closed = false) : main.removed = false := by
  cases main with
  | next | reading | done => rfl
  | joining | waiting | cleanup | returned | panicked => cases h

/-- A step of the main thread while it reads. -/
theorem Inv.of_reader (h : Inv K job queue handed received s) (hopen : s.main.closed = false) {main : Main}
    (hopen' : main.closed = false) {reader : ReadState} {outbox : List RawBlock}
    (hreading : Reading job queue handed { s with reader := reader, outbox := outbox, main := main }) :
    Inv K job queue handed received { s with reader := reader, outbox := outbox, main := main } where
  path := by
    rw [h.path, removed_of_open hopen]
    exact (if_neg (by rw [removed_of_open hopen']; simp)).symm
  outbox hc := by rw [hopen'] at hc; cases hc
  reading := hreading
  accounts := h.accounts
  pool := by
    have hpool := h.pool
    unfold PoolEnd at hpool ⊢
    cases hr : s.pool.result with
    | none => trivial
    | some result =>
      rw [hr] at hpool
      cases result with
      | ok _ => rw [hopen] at hpool; cases hpool.2.2.1
      | error e => exact hpool
  absorbed := h.absorbed
  mailed := (mailed_open hopen').2 ((mailed_open hopen).1 h.mailed)
  completed hm := by
    obtain rfl : main = .returned (.ok ()) := hm
    cases hopen'

/-- The raw channel stays closed. -/
theorem PoolEnd.of_closed (h : PoolEnd s) {s' : State} (hpool : s'.pool = s.pool) (hclosed : s'.main.closed = true) :
    PoolEnd s' := by
  unfold PoolEnd at h ⊢
  rw [hpool]
  cases hr : s.pool.result with
  | none => trivial
  | some result =>
    rw [hr] at h
    cases result with
    | ok _ => exact ⟨h.1, h.2.1, hclosed, h.2.2.2⟩
    | error e => exact h

/-- The main thread gives up. -/
theorem Inv.of_failed (h : Inv K job queue handed received s) (hremoved : s.main.removed = false)
    (houtbox : s.outbox = []) (reader : ReadState) {main : Main}
    (hmain : (∃ e, main = .cleanup e) ∨ ∃ message, main = .panicked message) :
    Inv K job queue handed received { s with reader := reader, main := main } := by
  have hpath := h.path
  rw [hremoved] at hpath
  rcases hmain with ⟨e, rfl⟩ | ⟨message, rfl⟩
  · exact ⟨hpath, fun _ => houtbox, trivial, h.accounts, h.pool.of_closed rfl rfl, h.absorbed, trivial,
      fun hm => by cases hm⟩
  · exact ⟨hpath, fun _ => houtbox, trivial, h.accounts, h.pool.of_closed rfl rfl, h.absorbed, trivial,
      fun hm => by cases hm⟩

/-- Opening a path sends nothing. -/
theorem openPath_sent (os : Os) (p root : Path) (bs : Nat) (l : List RawBlock) :
    Act.Keeps (fun s : ReadState => s.sent = l) (openPath os p root bs) := by
  refine Act.keeps_bind (Act.keeps_lift _) fun m => Act.keeps_bind (Act.keeps_lift _) fun stripped => ?_
  split
  · refine Act.keeps_bind ?_ fun _ => Act.keeps_pure _
    unfold handleNonRegularFiles
    dsimp only
    split
    · exact Act.keeps_bind (Act.keeps_lift _) fun _ => Act.keeps_bind (Act.keeps_lift _) fun _ =>
        Act.keeps_modify fun _ h => h
    · exact Act.keeps_bind (Act.keeps_pure _) fun _ => Act.keeps_bind (Act.keeps_lift _) fun _ =>
        Act.keeps_modify fun _ h => h
  · exact Act.keeps_bind (Act.keeps_modify fun _ h => h) fun _ => Act.keeps_bind (Act.keeps_lift _) fun _ =>
      Act.keeps_bind (Act.keeps_lift _) fun _ => Act.keeps_pure _

/-- The blocks of one read are sent after those before. -/
theorem consume_sent (bs : Nat) (s : ReadState) (d : Bytes) :
    s.sent ++ (s.consume bs d).sent.drop s.sent.length = (s.consume bs d).sent := by
  rw [ReadState.consume_eq]
  simp [ReadState.feed]

/-- Reading the next path, up to its loop of reads. -/
theorem readFiles_openPath (os : Os) (root : Path) (bs : Nat) (p : Path) (ps : List Path) (s : ReadState) :
    readFiles os root bs (p :: ps) s = match openPath os p root bs s with
      | (.ok (some file), s') => (do
          readPieces p bs (file.reads bs) (file.err bs)
          readFiles os root bs ps : ReadM Unit) s'
      | (.ok none, s') => readFiles os root bs ps s'
      | (.error e, s') => (.error e, s') := by
  rw [readFiles, readFileToBytes_openPath, bind_assoc, Act.bind_run]
  split
  · rename_i r s' hrun
    rw [hrun]
    cases r <;> rfl
  · rename_i e s' hrun
    rw [hrun]

theorem exists_blocks : ∀ {messages : List WriterMessage}, (∀ message ∈ messages, ∃ b, message = .block b) →
    ∃ bs : List ProcessedBlock, messages = bs.map .block
  | [], _ => ⟨[], rfl⟩
  | message :: messages, h => by
    obtain ⟨b, rfl⟩ := h message List.mem_cons_self
    obtain ⟨bs, rfl⟩ := exists_blocks fun m hm => h m (List.mem_cons_of_mem _ hm)
    exact ⟨b :: bs, rfl⟩

theorem joined_eq_ok {result : Except Halt Unit} (h : joined result = .ok ()) : result = .ok () := by
  unfold joined at h
  split at h
  · rfl
  · cases h
  · cases h

/-- When the pool and the writer have ended without an error, everything was read, processed and written. -/
theorem Inv.completed_of_waiting {path : Option Bytes} {reader : ReadState} {pool : Pool}
    {messages : List WriterMessage} {arch : ArchiveWriter} (hnew : job.archive.index.block = [])
    (h : Inv K job queue handed received ⟨path, .waiting, reader, [], pool, messages, .ended (.ok ()) arch⟩) :
    ∃ processed, Completed K job queue reader processed arch := by
  have hpool := h.pool
  obtain ⟨hread, hhanded⟩ := h.reading
  obtain ⟨hresult, hmessages, r, mid, habsorb, hfinal⟩ := h.mailed
  unfold PoolEnd at hpool
  simp only at hresult hmessages hhanded
  rw [hresult] at hpool
  obtain ⟨hworking, hsending, _, hraw, hfailures⟩ := hpool
  have hacc := h.accounts hfailures
  simp only [hmessages] at hacc
  rw [List.append_nil] at hhanded
  rw [hhanded] at hacc
  exact hacc.completed hnew hread hraw hworking hsending habsorb hfinal

theorem inv_main (hnew : job.archive.index.block = []) (h : Inv K job queue handed received s)
    (hs : step K job s .main = some s') : ∃ handed', Inv K job queue handed' received s' := by
  replace hs : mainStep job s = some s' := hs
  obtain ⟨path, main, reader, outbox, pool, messages, writer⟩ := s
  unfold mainStep at hs
  cases outbox with
  | cons b outbox =>
    cases hs
    exact ⟨handed ++ [b], h.of_outbox rfl⟩
  | nil =>
    refine ⟨handed, ?_⟩
    have hreading := h.reading
    cases main with
    | next ps =>
      obtain ⟨hread, hhanded⟩ := hreading
      cases ps with
      | nil =>
        cases hs
        refine h.of_reader rfl rfl ⟨hread, ?_⟩
        rw [List.append_nil] at hhanded
        rw [hhanded]
        rfl
      | cons p ps =>
        rw [readFiles_openPath] at hread
        have hsent := Act.snd_of_wp (openPath_sent job.os p job.root job.blockSize reader.sent reader rfl)
        simp only at hs hread
        split at hs
        · rename_i reader' hrun
          rw [hrun] at hread hsent
          cases hs
          exact h.of_reader rfl rfl ⟨hread, hhanded.trans hsent.symm⟩
        · rename_i file reader' hrun
          rw [hrun] at hread hsent
          cases hs
          exact h.of_reader rfl rfl ⟨hread, hhanded.trans hsent.symm⟩
        · cases hs
          exact h.of_reader rfl rfl trivial
        · cases hs
          exact h.of_failed rfl rfl _ (.inr ⟨_, rfl⟩)
    | reading p pieces err ps =>
      obtain ⟨hread, hhanded⟩ := hreading
      cases pieces with
      | nil =>
        cases err with
        | none =>
          cases hs
          exact h.of_reader rfl rfl ⟨hread, hhanded⟩
        | some e =>
          cases hs
          exact h.of_reader rfl rfl trivial
      | cons d pieces =>
        cases hs
        refine h.of_reader rfl rfl ⟨hread, ?_⟩
        rw [List.append_nil] at hhanded
        rw [hhanded]
        exact consume_sent job.blockSize reader d
    | done readResult =>
      cases hs
      refine ⟨h.path, fun _ => rfl, ?_, h.accounts, h.pool.of_closed rfl rfl, h.absorbed, h.mailed,
        fun hm => by cases hm⟩
      cases readResult with
      | ok _ => exact hreading
      | error e => trivial
    | joining readResult =>
      cases hresult : pool.result with
      | none => simp only [hresult] at hs; cases hs
      | some result =>
        simp only [hresult] at hs
        split at hs
        · cases hs
          exact h.of_failed rfl rfl _ (.inl ⟨_, rfl⟩)
        · cases hs
          exact h.of_failed rfl rfl _ (.inl ⟨_, rfl⟩)
        · cases hs
          exact h.of_failed rfl rfl _ (.inl ⟨_, rfl⟩)
        · rename_i hjoined
          cases hs
          obtain rfl := joined_eq_ok hjoined
          obtain ⟨bs, rfl⟩ := exists_blocks h.mailed.1
          refine ⟨h.path, fun _ => rfl, hreading, fun hf => (h.accounts hf).of_blocks (by simp),
            h.pool.of_closed rfl rfl, h.absorbed, ⟨hresult, bs, rfl⟩, fun hm => by cases hm⟩
    | waiting =>
      cases writer with
      | running q e arch => cases hs
      | ended result arch =>
        simp only at hs
        split at hs
        · rename_i hjoined
          cases hs
          obtain rfl := joined_eq_ok hjoined
          obtain ⟨processed, hcompleted⟩ := h.completed_of_waiting hnew
          exact ⟨h.path, fun _ => rfl, trivial, h.accounts, h.pool.of_closed rfl rfl, h.absorbed, trivial,
            fun _ => ⟨reader, processed, arch, rfl, hcompleted⟩⟩
        · cases hs
          exact h.of_failed rfl rfl _ (.inl ⟨_, rfl⟩)
    | cleanup e =>
      cases hs
      exact ⟨rfl, fun _ => rfl, trivial, h.accounts, h.pool.of_closed rfl rfl, h.absorbed, trivial,
        fun hm => by cases hm⟩
    | returned r => cases hs
    | panicked m => cases hs

/-- **Every step keeps the invariant.** -/
theorem inv_step (hnew : job.archive.index.block = []) {move : Move} (h : Inv K job queue handed received s)
    (hs : step K job s move = some s') : ∃ handed' received', Inv K job queue handed' received' s' := by
  cases move with
  | main =>
    obtain ⟨handed', h'⟩ := inv_main hnew h hs
    exact ⟨handed', received, h'⟩
  | receive =>
    obtain ⟨received', h'⟩ := inv_receive h hs
    exact ⟨handed, received', h'⟩
  | take => exact ⟨handed, received, inv_take h hs⟩
  | process b nonce => exact ⟨handed, received, inv_process h hs⟩
  | send b => exact ⟨handed, received, inv_send h hs⟩
  | failProcess b e => exact ⟨handed, received, inv_failProcess h hs⟩
  | failSend b e => exact ⟨handed, received, inv_failSend h hs⟩
  | endPool result => exact ⟨handed, received, inv_endPool h hs⟩
  | panicWriter message => exact ⟨handed, received, inv_panicWriter h hs⟩
  | disconnect => exact ⟨handed, received, inv_disconnect h hs⟩

/-- **Every schedule keeps the invariant.** -/
theorem inv_run (hnew : job.archive.index.block = []) : ∀ {moves : List Move} {handed : List RawBlock}
    {received : List ProcessedBlock} {s s' : State}, Inv K job queue handed received s →
    run K job moves s = some s' → ∃ handed' received', Inv K job queue handed' received' s'
  | [], handed, received, _, _, h, hs => by
    cases hs
    exact ⟨handed, received, h⟩
  | move :: moves, _, _, s, _, h, hs => by
    obtain ⟨s₁, hstep, hrun⟩ := Option.bind_eq_some_iff.1 hs
    obtain ⟨_, _, h₁⟩ := inv_step hnew h hstep
    exact inv_run hnew h₁ hrun

end

end Threads

/-! ## The call -/

open Threads

variable {K}

/-- A call that returned: before its threads started, or after some schedule of their moves. What stands at the
archive's path then is the last argument. -/
inductive Returns (K : Crates) (setup : Setup) (os : Os) (indexNonce : Nonce) (args : CompressArgs)
    (existing : Option Bytes) : Result Unit → Option Bytes → Prop where
  | early {e : CryoErrors} {path : Option Bytes} (hopen : openArchive K setup args existing = (.error e, path)) :
      Returns K setup os indexNonce args existing (.error e) path
  | late {root : Path} {queue : List Path} {archive : ArchiveWriter} {path : Option Bytes} {moves : List Move}
      {s : State} {r : Result Unit} (hopen : openArchive K setup args existing = (.ok (root, queue, archive), path))
      (hrun : run K ⟨os, root, args.bs, archive, indexNonce⟩ moves
        (spawn ⟨os, root, args.bs, archive, indexNonce⟩ queue path) = some s)
      (hmain : s.main = .returned r) : Returns K setup os indexNonce args existing r s.path

/-- Before the threads start nothing is changed by a failure, and a new archive is created where nothing was. -/
theorem openArchive_outcome {setup : Setup} {args : CompressArgs} {headerBytes : Bytes}
    (hheader : K.headerToVec (args.header setup) = some headerBytes)
    (hbuffer : ∀ faults, setup.createNew (archiveFilename args.archiveName) = some faults → faults 0 = none)
    (existing : Option Bytes) :
    Act.wp (openArchive K setup args) (fun r path => existing = none ∧ path = some r.2.2.writer.bytes ∧
      prepare K setup args = .ok (r.1, r.2.1) ∧ ∃ faults,
        setup.createNew (archiveFilename args.archiveName) = some faults ∧
        ArchiveWriter.new K (some (Sink.create faults)) (args.header setup) setup.prompts args.confirm = .ok r.2.2)
      (fun _ path => path = existing) existing := by
  unfold openArchive
  rw [Act.wp_bind, Act.wp_lift]
  refine ⟨fun r hprepare => ?_, fun _ _ => rfl⟩
  obtain ⟨root, queue⟩ := r
  rw [Act.wp_bind, Act.wp_lift]
  refine ⟨fun cipher hcipher => ?_, fun _ _ => rfl⟩
  rw [Act.wp_bind, Act.wp_read]
  simp only [id]
  split
  · rename_i faults hcreate
    have hwrite := ArchiveWriter.writeHeader_eq hheader faults (hbuffer faults hcreate) cipher
    rw [hwrite]
    refine ⟨rfl, rfl, hprepare, faults, hcreate, ?_⟩
    unfold ArchiveWriter.new
    rw [hcipher]
    exact hwrite
  · rfl

/-- The archive was created, every raw block of the call was written once and in order, and the index was finished with
all entries; this is the file at the archive's path. -/
def WroteAll (K : Crates) (setup : Setup) (os : Os) (indexNonce : Nonce) (args : CompressArgs) (path : Option Bytes) :
    Prop :=
  ∃ root queue faults archive reader processed arch, prepare K setup args = .ok (root, queue) ∧
    setup.createNew (archiveFilename args.archiveName) = some faults ∧
    ArchiveWriter.new K (some (Sink.create faults)) (args.header setup) setup.prompts args.confirm = .ok archive ∧
    Completed K ⟨os, root, args.bs, archive, indexNonce⟩ queue reader processed arch ∧ path = some arch.writer.bytes

section
variable {setup : Setup} {os : Os} {indexNonce : Nonce} {args : CompressArgs} {headerBytes : Bytes}

/-- What a call has done when it returned. -/
theorem Returns.outcome (hheader : K.headerToVec (args.header setup) = some headerBytes)
    (hbuffer : ∀ faults, setup.createNew (archiveFilename args.archiveName) = some faults → faults 0 = none)
    {existing path : Option Bytes} {r : Result Unit} (h : Returns K setup os indexNonce args existing r path) :
    match r with
    | .ok () => WroteAll K setup os indexNonce args path
    | .error _ => path = existing := by
  have houtcome := openArchive_outcome hheader hbuffer existing
  cases h with
  | early hopen => exact (Act.of_wp houtcome).2 _ hopen
  | late hopen hrun hmain =>
    rename_i root queue archive path₁ moves s
    obtain ⟨rfl, rfl, hprepare, faults, hcreate, hnew⟩ := (Act.of_wp houtcome).1 _ hopen
    obtain ⟨_, _, hinv⟩ := inv_run (ArchiveWriter.new_blocks hnew) (inv_spawn _ queue) hrun
    have hpath := hinv.path
    cases r with
    | ok _ =>
      obtain ⟨reader, processed, arch, hended, hcompleted⟩ := hinv.completed hmain
      rw [hmain, hended] at hpath
      exact ⟨root, queue, faults, archive, reader, processed, arch, hprepare, hcreate, hnew, hcompleted, hpath⟩
    | error e =>
      rw [hmain] at hpath
      exact hpath

/-- **A compression is all or nothing**, in every schedule and with every failure. A call that returns `Ok` has written
every raw block it produced once and in order, and finished with all entries; a call that returns `Err` leaves at the
archive's path what was there before, a file or nothing. -/
theorem compress_all_or_nothing (hheader : K.headerToVec (args.header setup) = some headerBytes)
    (hbuffer : ∀ faults, setup.createNew (archiveFilename args.archiveName) = some faults → faults 0 = none)
    {existing path : Option Bytes} {r : Result Unit} (h : Returns K setup os indexNonce args existing r path) :
    (r = .ok () → WroteAll K setup os indexNonce args path) ∧ ∀ e, r = .error e → path = existing := by
  have houtcome := h.outcome hheader hbuffer
  constructor
  · rintro rfl
    exact houtcome
  · rintro e rfl
    exact houtcome

/-- A schedule for a file of two blocks, the second of which overtakes the first. -/
def overtaking : List Move :=
  let b0 : RawBlock := ⟨0, [1, 2]⟩
  let b1 : RawBlock := ⟨1, [3]⟩
  let nonce : Nonce := Vector.replicate 12 0
  let p0 : ProcessedBlock := ⟨0, [1, 2], 2, false, nonce, Vector.ofFn fun i => [1, 2].getD i 0⟩
  let p1 : ProcessedBlock := ⟨1, [3], 1, false, nonce, Vector.ofFn fun i => [3].getD i 0⟩
  [.main, .main, .main, .take, .main, .main, .main, .main, .take, .main, .process b1 nonce, .send p1, .receive,
    .process b0 nonce, .send p0, .endPool (.ok ()), .main, .receive, .receive, .main]

/-- The call returned without an error. -/
def Threads.State.succeeded (s : Threads.State) : Bool :=
  match s.main with
  | .returned (.ok ()) => true
  | _ => false

/-- Two blocks are processed and received in the wrong order, and written in the right one. -/
theorem compress_all_or_nothing_two :
    let K := Crates.tabled [Header.stored 2] [indexOfA]
    let os := Os.ofFiles [([.normal "src", .normal "a"], 3, [1, 2, 3])]
    let setup := Setup.plain [[.normal "src", .normal "a"]]
    ∃ (archive arch : ArchiveWriter) (reader : ReadState) (processed : List ProcessedBlock),
      Returns K setup os (Vector.replicate 12 0) (CompressArgs.plain 2) none (.ok ()) (some arch.writer.bytes) ∧
      Completed K ⟨os, [.normal "src"], 2, archive, Vector.replicate 12 0⟩ [[.normal "src", .normal "a"]] reader
        processed arch ∧ arch.writer.bytes.take 7 = [0, 0, 0, 0, 1, 2, 3] := by
  intro K os setup
  let args := CompressArgs.plain 2
  let shown (s : State) : Bool × Option Bytes := (s.succeeded, s.path.map (List.take 7))
  obtain ⟨⟨root, queue, archive⟩, hopen, hshown⟩ := Except.exists_of_toOption_map
    (x := (openArchive K setup args none).1)
    (f := fun r => (run K ⟨os, r.1, 2, r.2.2, Vector.replicate 12 0⟩ overtaking
      (spawn ⟨os, r.1, 2, r.2.2, Vector.replicate 12 0⟩ r.2.1 (openArchive K setup args none).2)).map shown)
    (b := some (true, some [0, 0, 0, 0, 1, 2, 3])) (by decide +kernel)
  obtain ⟨s, hrun, hs⟩ := Option.map_eq_some_iff.1 hshown
  obtain ⟨hmain, hpath⟩ := Prod.mk.inj hs
  have hreturned : s.main = .returned (.ok ()) := by
    unfold Threads.State.succeeded at hmain
    split at hmain
    · assumption
    · cases hmain
  have hcall := Returns.late (Act.run_of_ok hopen) hrun hreturned
  obtain ⟨_, _, _, archive', reader, processed, arch, hprepare, _, _, hcompleted, hcontent⟩ :=
    (compress_all_or_nothing (show K.headerToVec (args.header setup) = some [] from rfl)
      (fun faults hf => by cases hf; rfl) hcall).1 rfl
  cases hprepare
  rw [hcontent] at hcall hpath
  exact ⟨archive', arch, reader, processed, hcall, hcompleted, Option.some.inj hpath⟩

/-! ## The threads refine the sequential run -/

/-- What the threads completed is what the sequential run writes with the nonces they drew. -/
theorem Threads.Completed.compressFiles {job : Job} {queue : List Path} {reader : ReadState}
    {processed : List ProcessedBlock} {arch : ArchiveWriter} (hnew : job.archive.index.block = [])
    (h : Completed K job queue reader processed arch) : ∃ draws, ∀ delivery,
      compressFiles K ⟨job.os, draws, delivery⟩ job.archive job.root queue job.blockSize = .ok arch := by
  let nonces (i : Nat) : Nonce := (processed[i]?.map ProcessedBlock.nonce).getD (Vector.replicate 12 0)
  refine ⟨⟨nonces, job.indexNonce⟩, fun delivery => ?_⟩
  -- block `i` drew the nonce that the block processed from it carries
  have hworkers : spawnWorkers K reader.produced nonces job.archive.cipher job.archive.header.archiveId
      job.archive.header.compression job.archive.header.compressionLevel = .ok processed := by
    refine Except.mapM_eq_ok.2 (List.forall₂_iff_get.2 ⟨h.worked.length_eq, fun i h₁ h₂ => ?_⟩)
    obtain ⟨nonce, hwork⟩ := (List.forall₂_iff_get.1 h.worked).2 i h₁ h₂
    have hid : (reader.produced.get ⟨i, h₁⟩).id = i := by
      have hi : (reader.produced.map RawBlock.id)[i]? = some (reader.produced.get ⟨i, h₁⟩).id := by simp [h₁]
      rw [h.ids, List.getElem?_range h₁] at hi
      exact (Option.some.inj hi).symm
    have hnonce : nonces (reader.produced.get ⟨i, h₁⟩).id = nonce := by
      rw [hid, ← (workerTask_ok hwork).2]
      simp [nonces, h₂]
    rw [hnonce]
    exact hwork
  have hids : processed.map ProcessedBlock.id = List.range' job.archive.index.block.length processed.length := by
    rw [hnew, spawnWorkers_ids hworkers, h.ids, h.worked.length_eq, List.range_eq_range']
    rfl
  obtain ⟨mid, hblocks, hfinal⟩ := h.written
  unfold Cryo.compressFiles runThreads
  rw [h.read]
  simp only [hworkers, Except.mapError, Except.ok_bind]
  rw [writer_eq K job.indexNonce hids (delivery.perm processed), Act.bind_of_ok hblocks, hfinal]

/-- **A call that returned `Ok` has written what `initializeCompression` writes** in every delivery order. -/
theorem Returns.initializeCompression (hheader : K.headerToVec (args.header setup) = some headerBytes)
    (hbuffer : ∀ faults, setup.createNew (archiveFilename args.archiveName) = some faults → faults 0 = none)
    {existing path : Option Bytes} (h : Returns K setup os indexNonce args existing (.ok ()) path) :
    ∃ draws arch, path = some arch.writer.bytes ∧
      ∀ delivery, initializeCompression K setup ⟨os, draws, delivery⟩ args = .ok arch := by
  obtain ⟨root, queue, faults, archive, reader, processed, arch, hprepare, hcreate, hnew, hcompleted, hpath⟩ :=
    h.outcome hheader hbuffer
  obtain ⟨draws, hrun⟩ := hcompleted.compressFiles (ArchiveWriter.new_blocks hnew)
  refine ⟨draws, arch, hpath, fun delivery => ?_⟩
  unfold Cryo.initializeCompression
  rw [hprepare, hcreate]
  simp only [Except.ok_bind, Option.map_some, hnew]
  exact hrun delivery

end

end Cryo
