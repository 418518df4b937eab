import Cryo.Lib.Progress
import Cryo.Threads
import Mathlib.Algebra.Order.Ring.Nat

/-!
# The threads come to an end

Every step of a thread of a compression uses up some of the work that is left (`Threads.State.work`): a byte still to be
read can become a block, and a block is handed over, taken, processed, sent and received. So no schedule goes on for
ever, whatever fails in it. And no thread waits for another that cannot step: the main thread waits for a pool that has
tasks or can end, or for a writer that has a message.

* `compress_terminates`: every schedule is bounded, and one that has not come to an end can go on without a failure.
-/

namespace Cryo

open Posix

namespace Threads

variable {K : Crates} {job : Job} {queue : List Path} {s s' : State}

/-! ## What is left to do -/

/-- The steps that reads still to come can take: a read is one, and a byte can make a block of its own. -/
def readWork (pieces : List Bytes) : Nat := (pieces.map fun d => 1 + 5 * d.length).sum

/-- The steps of a path: to open it, to read it, and to end its loop. -/
def Job.pathWork (job : Job) (p : Path) : Nat :=
  match job.os.openFile p with
  | .ok file => 2 + readWork (file.reads job.blockSize)
  | .error _ => 1

/-- The steps of a queue. -/
def Job.queueWork (job : Job) (queue : List Path) : Nat := (queue.map job.pathWork).sum

/-- The steps left to the main thread, with so many bytes pending. -/
def Main.work (job : Job) (pending : Nat) : Main → Nat
  | .next queue => job.queueWork queue + 5 * pending + 6
  | .reading _ pieces _ queue => readWork pieces + 1 + job.queueWork queue + 5 * pending + 6
  | .done _ => 5
  | .joining _ => 4
  | .waiting => 2
  | .cleanup _ => 1
  | .returned _ | .panicked _ => 0

/-- A raw block is taken, processed, sent and received. -/
def Pool.work (pool : Pool) : Nat :=
  4 * pool.raw.length + 3 * pool.working.length + 2 * pool.sending.length + if pool.result.isNone then 1 else 0

def Writer.work : Writer → Nat
  | .running .. => 1
  | .ended .. => 0

def State.work (job : Job) (s : State) : Nat :=
  s.main.work job s.reader.pendingBuffer.length + 5 * s.outbox.length + s.pool.work + s.messages.length + s.writer.work

@[simp] theorem readWork_nil : readWork [] = 0 := rfl

@[simp] theorem readWork_cons (d : Bytes) (ds : List Bytes) : readWork (d :: ds) = 1 + 5 * d.length + readWork ds := rfl

@[simp] theorem Job.queueWork_nil (job : Job) : job.queueWork [] = 0 := rfl

@[simp] theorem Job.queueWork_cons (job : Job) (p : Path) (ps : List Path) :
    job.queueWork (p :: ps) = job.pathWork p + job.queueWork ps := rfl

theorem Pool.offer_work (b : RawBlock) (pool : Pool) : (pool.offer b).work ≤ pool.work + 4 := by
  unfold Pool.offer
  split
  · simp [Pool.work]
    omega
  · omega

/-- The bytes of a read are blocks, or stay pending. -/
theorem consume_work (bs : Nat) (r : ReadState) (d : Bytes) :
    ((r.consume bs d).sent.drop r.sent.length).length + (r.consume bs d).pendingBuffer.length ≤
      r.pendingBuffer.length + d.length := by
  have hcut := Chunk.length_fullChunks_add_le bs (r.pendingBuffer ++ d)
  rw [ReadState.consume_eq]
  simp only [ReadState.feed, List.drop_left, length_numbered, List.length_append] at hcut ⊢
  omega

/-- The partial block is made of pending bytes. -/
theorem finalBlock_work (r : ReadState) : r.finalBlock.length ≤ r.pendingBuffer.length := by
  unfold ReadState.finalBlock
  split
  · simp
  · rename_i hne
    exact List.length_pos_iff.2 hne

/-- An entry that is no regular file reads nothing. -/
theorem handleNonRegularFiles_pending (os : Os) (ftype : FileType) (m : Metadata) (root p : Path) (pending : Bytes) :
    Act.Keeps (fun s : ReadState => s.pendingBuffer = pending) (handleNonRegularFiles os ftype m root p) := by
  unfold handleNonRegularFiles
  dsimp only
  split
  · exact Act.keeps_bind (Act.keeps_lift _) fun _ => Act.keeps_bind (Act.keeps_lift _) fun _ =>
      Act.keeps_modify fun _ h => h
  · exact Act.keeps_bind (Act.keeps_pure _) fun _ => Act.keeps_bind (Act.keeps_lift _) fun _ =>
      Act.keeps_modify fun _ h => h

/-- Opening a path reads nothing, and the file it opens is the one at the path. -/
theorem openPath_opens {os : Os} {p root : Path} {bs : Nat} {r r' : ReadState} {file : Option OpenFile}
    (h : openPath os p root bs r = (.ok file, r')) :
    r'.pendingBuffer = r.pendingBuffer ∧ ∀ f, file = some f → os.openFile p = .ok f := by
  unfold openPath at h
  obtain ⟨m, _, hm, hstripped⟩ := Act.bind_eq_ok.1 h
  obtain ⟨_, rfl⟩ := Act.lift_eq_ok.1 hm
  obtain ⟨stripped, r₁, hstrip, hbranch⟩ := Act.bind_eq_ok.1 hstripped
  obtain ⟨_, rfl⟩ := Act.lift_eq_ok.1 hstrip
  split at hbranch
  · obtain ⟨_, _, hspecial, hpure⟩ := Act.bind_eq_ok.1 hbranch
    cases hpure
    have hsame := Act.snd_of_wp (handleNonRegularFiles_pending os m.ftype m root p _ r₁ rfl)
    rw [hspecial] at hsame
    exact ⟨hsame, fun f hf => by cases hf⟩
  · obtain ⟨_, _, hpush, hfile⟩ := Act.bind_eq_ok.1 hbranch
    cases hpush
    obtain ⟨f, _, hopen, halloc⟩ := Act.bind_eq_ok.1 hfile
    obtain ⟨hread, rfl⟩ := Act.lift_eq_ok.1 hopen
    obtain ⟨_, _, halloc, hpure⟩ := Act.bind_eq_ok.1 halloc
    obtain ⟨_, rfl⟩ := Act.lift_eq_ok.1 halloc
    cases hpure
    refine ⟨rfl, fun f' hf' => ?_⟩
    cases hf'
    exact Except.mapError_eq_ok.1 hread

/-! ## Every step uses up work -/

theorem mainStep_work (h : mainStep job s = some s') : s'.work job < s.work job := by
  obtain ⟨path, main, reader, outbox, pool, messages, writer⟩ := s
  unfold mainStep at h
  cases outbox with
  | cons b outbox =>
    cases h
    have hoffer := Pool.offer_work b pool
    simp only [State.work, List.length_cons]
    omega
  | nil =>
    cases main with
    | next queue =>
      cases queue with
      | nil =>
        cases h
        have hfinal := finalBlock_work reader
        simp only [State.work, Main.work, Job.queueWork_nil, List.length_nil]
        omega
      | cons p queue =>
        simp only at h
        split at h
        · rename_i r hopen
          cases h
          obtain ⟨hpending, _⟩ := openPath_opens hopen
          have hpath : 1 ≤ job.pathWork p := by
            unfold Job.pathWork
            split <;> omega
          simp only [State.work, Main.work, Job.queueWork_cons, hpending]
          omega
        · rename_i file r hopen
          cases h
          obtain ⟨hpending, hfile⟩ := openPath_opens hopen
          have hpath : job.pathWork p = 2 + readWork (file.reads job.blockSize) := by
            unfold Job.pathWork
            rw [hfile file rfl]
          simp only [State.work, Main.work, Job.queueWork_cons, hpending, hpath]
          omega
        · cases h
          simp only [State.work, Main.work]
          omega
        · cases h
          simp only [State.work, Main.work]
          omega
    | reading p pieces err queue =>
      cases pieces with
      | nil =>
        cases err with
        | none =>
          cases h
          simp only [State.work, Main.work, readWork_nil]
          omega
        | some e =>
          cases h
          simp only [State.work, Main.work]
          omega
      | cons d pieces =>
        cases h
        have hconsume := consume_work job.blockSize reader d
        simp only [State.work, Main.work, readWork_cons, List.length_nil]
        omega
    | done readResult =>
      cases h
      simp only [State.work, Main.work]
      omega
    | joining readResult =>
      simp only at h
      split at h
      · cases h
      · split at h
        all_goals
          cases h
          simp only [State.work, Main.work, List.length_append, List.length_singleton]
          omega
    | waiting =>
      simp only at h
      split at h
      · cases h
      · split at h
        all_goals
          cases h
          simp only [State.work, Main.work]
          omega
    | cleanup e =>
      cases h
      simp only [State.work, Main.work]
      omega
    | returned r => cases h
    | panicked m => cases h

/-- A step of the pool or of the writer. -/
theorem work_of_other {pool : Pool} {messages : List WriterMessage} {writer : Writer} {path : Option Bytes}
    (h : pool.work + messages.length + writer.work < s.pool.work + s.messages.length + s.writer.work) :
    State.work job { s with path := path, pool := pool, messages := messages, writer := writer } < s.work job := by
  simp only [State.work]
  omega

/-- **Every step uses up work**, a failure too. -/
theorem step_work {move : Move} (h : step K job s move = some s') : s'.work job < s.work job := by
  cases move with
  | main => exact mainStep_work h
  | take =>
    simp only [step] at h
    split at h
    · rename_i b raw hresult hraw
      cases h
      refine work_of_other ?_
      simp only [Pool.work, hraw, List.length_cons]
      omega
    · cases h
  | process b nonce =>
    simp only [step] at h
    split at h
    · rename_i hb
      have herase := List.length_erase_of_mem hb
      have hpos := List.length_pos_of_mem hb
      split at h <;> cases h <;> refine work_of_other ?_ <;>
        simp only [Pool.work, herase, List.length_cons] <;> omega
    · cases h
  | send b =>
    simp only [step] at h
    split at h
    · rename_i hb
      have herase := List.length_erase_of_mem hb
      have hpos := List.length_pos_of_mem hb
      split at h <;> cases h <;> refine work_of_other ?_ <;>
        simp only [Pool.work, herase, List.length_append, List.length_singleton] <;> omega
    · cases h
  | failProcess b e =>
    simp only [step] at h
    split at h
    · rename_i hb
      have herase := List.length_erase_of_mem hb
      have hpos := List.length_pos_of_mem hb
      cases h
      refine work_of_other ?_
      simp only [Pool.work, herase]
      omega
    · cases h
  | failSend b e =>
    simp only [step] at h
    split at h
    · rename_i hb
      have herase := List.length_erase_of_mem hb
      have hpos := List.length_pos_of_mem hb
      cases h
      refine work_of_other ?_
      simp only [Pool.work, herase]
      omega
    · cases h
  | endPool result =>
    simp only [step] at h
    split at h
    · rename_i hend
      cases h
      refine work_of_other ?_
      simp only [Pool.work, hend.1]
      simp
    · cases h
  | receive =>
    simp only [step] at h
    split at h
    · rename_i q e arch message messages hwriter hmessages
      split at h <;> cases h <;> refine work_of_other ?_ <;>
        simp only [hwriter, hmessages, Writer.work, List.length_cons] <;> omega
    · cases h
  | panicWriter message =>
    simp only [step] at h
    split at h
    · rename_i hwriter
      cases h
      refine work_of_other ?_
      simp [hwriter, Writer.work]
    · cases h
  | disconnect =>
    simp only [step] at h
    split at h
    · rename_i hwriter _
      split at h
      · cases h
        refine work_of_other ?_
        simp [hwriter, Writer.work]
      · cases h
    · cases h

/-! ## Some thread can step -/

/-- A failure that the code does not ask for. -/
def Move.fails : Move → Bool
  | .failProcess .. | .failSend .. | .panicWriter _ => true
  | _ => false

variable (K job) in
/-- A pool that has not ended can step, when its channel is closed. -/
theorem exists_poolStep (hresult : s.pool.result = none) (hclosed : s.main.closed = true) :
    ∃ move s', move ≠ .main ∧ move.fails = false ∧ step K job s move = some s' := by
  cases hworking : s.pool.working with
  | cons b working =>
    have hb : b ∈ s.pool.working := by rw [hworking]; exact List.mem_cons_self
    refine ⟨.process b (Vector.replicate 12 0), ?_⟩
    simp only [step, if_pos hb]
    split <;> exact ⟨_, by simp, rfl, rfl⟩
  | nil =>
    cases hsending : s.pool.sending with
    | cons b sending =>
      have hb : b ∈ s.pool.sending := by rw [hsending]; exact List.mem_cons_self
      refine ⟨.send b, ?_⟩
      simp only [step, if_pos hb]
      split <;> exact ⟨_, by simp, rfl, rfl⟩
    | nil =>
      cases hfailures : s.pool.failures with
      | cons e failures =>
        have hcan : s.canEnd (.error e) = true := by simp [State.canEnd, hfailures]
        exact ⟨.endPool (.error e), _, by simp, rfl, if_pos ⟨by simp [hresult], hworking, hsending, hcan⟩⟩
      | nil =>
        cases hraw : s.pool.raw with
        | cons b raw => exact ⟨.take, by simp [step, hresult, hraw, Move.fails]⟩
        | nil =>
          have hcan : s.canEnd (.ok ()) = true := by simp [State.canEnd, hfailures, hraw, hclosed]
          exact ⟨.endPool (.ok ()), _, by simp, rfl, if_pos ⟨by simp [hresult], hworking, hsending, hcan⟩⟩

variable (K job) in
/-- A writer that has a message can step. -/
theorem exists_receive {q : List ProcessedBlock} {e : Nat} {arch : ArchiveWriter} {message : WriterMessage}
    {messages : List WriterMessage} (hwriter : s.writer = .running q e arch)
    (hmessages : s.messages = message :: messages) : ∃ s', step K job s .receive = some s' := by
  simp only [step, hwriter, hmessages]
  split <;> exact ⟨_, rfl⟩

/-- **No thread waits for ever**: until the call is over some thread can step. -/
theorem Inv.exists_step {handed : List RawBlock} {received : List ProcessedBlock}
    (h : Inv K job queue handed received s) (hover : s.main.over = false) :
    ∃ move s', move.fails = false ∧ step K job s move = some s' := by
  have hmain : ∀ {s'}, mainStep job s = some s' → ∃ move s', move.fails = false ∧ step K job s move = some s' :=
    fun hs => ⟨.main, _, rfl, hs⟩
  cases houtbox : s.outbox with
  | cons b outbox => exact hmain (by simp only [mainStep, houtbox]; rfl)
  | nil =>
    cases hm : s.main with
    | next ps =>
      cases ps with
      | nil => exact hmain (by simp only [mainStep, houtbox, hm]; rfl)
      | cons p ps =>
        refine ⟨.main, ?_⟩
        simp only [step, mainStep, houtbox, hm]
        split <;> exact ⟨_, rfl, rfl⟩
    | reading p pieces err ps =>
      cases pieces with
      | cons d pieces => exact hmain (by simp only [mainStep, houtbox, hm]; rfl)
      | nil => cases err <;> exact hmain (by simp only [mainStep, houtbox, hm]; rfl)
    | done readResult => exact hmain (by simp only [mainStep, houtbox, hm]; rfl)
    | joining readResult =>
      cases hresult : s.pool.result with
      | none =>
        obtain ⟨move, s', _, hcalm, hs⟩ := exists_poolStep K job hresult (by rw [hm]; rfl)
        exact ⟨move, s', hcalm, hs⟩
      | some result =>
        refine ⟨.main, ?_⟩
        simp only [step, mainStep, houtbox, hm, hresult]
        split <;> exact ⟨_, rfl, rfl⟩
    | waiting =>
      cases hwriter : s.writer with
      | ended result arch =>
        refine ⟨.main, ?_⟩
        simp only [step, mainStep, houtbox, hm, hwriter]
        split <;> exact ⟨_, rfl, rfl⟩
      | running q e arch =>
        -- `Finalize` is still in the channel
        have hmailed := h.mailed
        unfold Mailed at hmailed
        simp only [hm, hwriter] at hmailed
        obtain ⟨_, bs, hmessages⟩ := hmailed
        have hne : s.messages ≠ [] := by simp [hmessages]
        obtain ⟨message, messages, hcons⟩ := List.exists_cons_of_ne_nil hne
        obtain ⟨s', hs⟩ := exists_receive K job hwriter hcons
        exact ⟨.receive, s', rfl, hs⟩
    | cleanup e => exact hmain (by simp only [mainStep, houtbox, hm]; rfl)
    | returned r => rw [hm] at hover; cases hover
    | panicked m => rw [hm] at hover; cases hover

/-! ## The end -/

theorem run_eq_steps : ∀ (moves : List Move) (s : State),
    run K job moves s = Progress.steps (fun move s => step K job s move) moves s
  | [], _ => rfl
  | move :: moves, s => by
    unfold run Progress.steps
    congr 1
    funext s'
    exact run_eq_steps moves s'

/-- **The threads come to an end.** No schedule has more steps than there is work in the queue, whatever fails in it;
and as long as the call is not over, some thread can take a step that is no failure. -/
theorem compress_terminates (hnew : job.archive.index.block = []) {moves : List Move}
    (hrun : run K job moves (spawn job queue (some job.archive.writer.bytes)) = some s) :
    moves.length ≤ job.queueWork queue + 8 ∧
      (s.main.over = true ∨ ∃ move s', move.fails = false ∧ step K job s move = some s') := by
  constructor
  · rw [run_eq_steps] at hrun
    have hlength := Progress.length_steps (State.work job) step_work hrun
    have hspawn : (spawn job queue (some job.archive.writer.bytes)).work job = job.queueWork queue + 8 := rfl
    omega
  · obtain ⟨_, _, hinv⟩ := inv_run hnew (inv_spawn job queue) hrun
    cases hover : s.main.over with
    | true => exact .inl rfl
    | false => exact .inr (hinv.exists_step hover)

/-- A new archive, and a file of three bytes to read in blocks of two. -/
def Job.small : Job where
  os := Os.ofFiles [([.normal "src", .normal "a"], 3, [1, 2, 3])]
  root := [.normal "src"]
  blockSize := 2
  archive := {
    writer := { bytes := [0, 0, 0, 0], pos := 4, faults := fun _ => none, calls := 1 }
    index := ⟨[], [], 0⟩
    streamPosition := 0
    filePosition := 4
    cipher := .none
    header := Header.stored 2 }
  indexNonce := Vector.replicate 12 0

/-- The threads that start on it. -/
def State.small : State := Threads.spawn Job.small [[.normal "src", .normal "a"]] (some Job.small.archive.writer.bytes)

/-- Two blocks are processed, received and written in twenty steps, with work for twenty-seven. -/
theorem compress_terminates_small :
    let K := Crates.tabled [Header.stored 2] [indexOfA]
    ∃ s, run K Job.small overtaking State.small = some s ∧ overtaking.length ≤ Job.small.queueWork
      [[.normal "src", .normal "a"]] + 8 ∧ (s.main.over = true ∨ ∃ move s', move.fails = false ∧
        step K Job.small s move = some s') := by
  intro K
  have hshown : (run K Job.small overtaking State.small).isSome = true := by decide +kernel
  obtain ⟨s, hrun⟩ := Option.isSome_iff_exists.1 hshown
  exact ⟨s, hrun, compress_terminates rfl hrun⟩

end Threads

end Cryo
