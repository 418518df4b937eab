import Cryo.Lib.Gather
import Cryo.Lib.Progress
import Cryo.Liveness
import Mathlib.Algebra.Order.BigOperators.Group.List

/-!
# The pool of engines

`spawn_workers` as its threads run it. They share a stack of engines under a lock: a thread with a raw block takes the
engine on top, or makes one, still with the lock, when there is none; it puts the engine back once the block is
processed, also when that failed, and sends the processed block under the lock of the sender. A panic drops the engine
of its thread and poisons the lock it held; who comes to a poisoned lock fails.

The main thread and the writer are those of `Threads`, where a block that is worked on just leaves the pool at some moment
with the result of a new engine.

* `Pool.Lent`, `lent_step`: every engine is lent once, and the lock is held by the thread that makes one.
* `engines_exclusive`: what this means for the threads and the engines of any run.
-/

namespace Cryo

namespace Engines

open Posix
open Threads (Job Main Writer)

/-! ## The states of the pool -/

/-- An engine, with the number that says when it was made. -/
structure Engine (K : Crates) where
  number : Nat
  engine : CompressingEngine K

inductive Mutex where
  | free
  | held
  | poisoned
  deriving DecidableEq

/-- The stack `engine_pool` with its lock, and how many engines were made. -/
structure Shared (K : Crates) where
  engines : List (Engine K)
  lock : Mutex
  made : Nat

/-- Where a thread of the pool is with its block. -/
inductive Task (K : Crates) where
  | idle
  /-- Before the lock of the stack. -/
  | starting (b : RawBlock)
  /-- In `CompressingEngine::new`, with the lock. -/
  | creating (b : RawBlock)
  | processing (b : RawBlock) (engine : Engine K)
  /-- Before the lock again, with the result of `process_block`. -/
  | returning (b : RawBlock) (engine : Engine K) (result : Result ProcessedBlock)
  /-- Before the lock of the sender. -/
  | sending (b : ProcessedBlock)

structure Pool (K : Crates) where
  raw : List RawBlock
  tasks : List (Task K)
  shared : Shared K
  /-- A panic has poisoned the lock of `writer_tx`. -/
  senderPoisoned : Bool
  failures : List Halt
  result : Option (Except Halt Unit)

structure State (K : Crates) where
  path : Option Bytes
  main : Main
  reader : ReadState
  outbox : List RawBlock
  pool : Pool K
  messages : List WriterMessage
  writer : Writer

variable {K : Crates}

/-- The raw block a thread works on. -/
def Task.raw : Task K → List RawBlock
  | .starting b | .creating b | .processing b _ | .returning b _ _ => [b]
  | .idle | .sending _ => []

def Task.processed : Task K → List ProcessedBlock
  | .sending b => [b]
  | _ => []

/-- The engine a thread has. -/
def Task.engine : Task K → List (Engine K)
  | .processing _ engine | .returning _ engine _ => [engine]
  | _ => []

/-- The pool without its engines, with the blocks worked on in some order. -/
def Pool.view (pool : Pool K) (working : List RawBlock) (sending : List ProcessedBlock) : Threads.Pool :=
  ⟨pool.raw, working, sending, pool.failures, pool.result⟩

def State.view (s : State K) (working : List RawBlock) (sending : List ProcessedBlock) : Threads.State :=
  ⟨s.path, s.main, s.reader, s.outbox, s.pool.view working sending, s.messages, s.writer⟩

/-- The blocks that are worked on and those that are being sent. -/
def Pool.working (pool : Pool K) : List RawBlock := pool.tasks.flatMap Task.raw

def Pool.sending (pool : Pool K) : List ProcessedBlock := pool.tasks.flatMap Task.processed

/-- What the main thread and the writer leave: of the pool they change the channel of raw blocks only. -/
def State.withView (s : State K) (v : Threads.State) : State K :=
  ⟨v.path, v.main, v.reader, v.outbox, { s.pool with raw := v.pool.raw }, v.messages, v.writer⟩

/-! ## The steps -/

/-- The next step of a thread with a raw block: how it goes on or fails, and the stack then. The nonce is what
`process_block` draws. -/
def Task.work (job : Job) (nonce : Nonce) (shared : Shared K) :
    Task K → Option (Except Halt (Task K) × Shared K)
  | .starting b =>
    match shared.lock, shared.engines with
    | .held, _ => none
    | .poisoned, _ => some (.error (.err .threadError), shared)
    | .free, engine :: engines => some (.ok (.processing b engine), { shared with engines := engines })
    | .free, [] => some (.ok (.creating b), { shared with lock := .held })
  | .creating b =>
    match CompressingEngine.new job.archive.header.compression job.archive.header.compressionLevel with
    | .ok engine => some (.ok (.processing b ⟨shared.made, engine⟩), ⟨shared.engines, .free, shared.made + 1⟩)
    | .error e => some (.error (.err e), { shared with lock := .free })
  | .processing b engine =>
    let result := processBlock job.archive.cipher job.archive.header.archiveId engine.engine nonce b
    some (.ok (.returning b engine result), shared)
  | .returning _ engine result =>
    match shared.lock, result with
    | .held, _ => none
    | .poisoned, _ => some (.error (.err .threadError), shared)
    | .free, .ok b => some (.ok (.sending b), { shared with engines := engine :: shared.engines })
    | .free, .error e => some (.error (.err e), { shared with engines := engine :: shared.engines })
  | .idle | .sending _ => none

/-- A panic in the step of a thread with a raw block. Where the step has the lock, it is poisoned. -/
def Task.panic (message : String) (shared : Shared K) : Task K → Option (Except Halt (Task K) × Shared K)
  | .starting _ | .returning .. =>
    if shared.lock = .free then some (.error (.panic message), { shared with lock := .poisoned }) else none
  | .creating _ => some (.error (.panic message), { shared with lock := .poisoned })
  | .processing .. => some (.error (.panic message), shared)
  | .idle | .sending _ => none

/-- A crate fails in the step of a thread, though it need not. -/
def Task.refuse (e : CryoErrors) (shared : Shared K) : Task K → Option (Except Halt (Task K) × Shared K)
  | .creating _ => some (.error (.err e), { shared with lock := .free })
  | .processing b engine => some (.ok (.returning b engine (.error e)), shared)
  | .idle | .starting _ | .returning .. | .sending _ => none

/-- Thread `i` goes on, or has failed and is idle. -/
def Pool.advance (pool : Pool K) (i : Nat) : Except Halt (Task K) × Shared K → Pool K
  | (.ok task, shared) => { pool with tasks := pool.tasks.set i task, shared := shared }
  | (.error h, shared) => { pool with
      tasks := pool.tasks.set i .idle
      shared := shared
      failures := h :: pool.failures }

/-- Which thread takes its next step, and how where that is not determined; `i` is a thread of the pool. -/
inductive Move where
  | main
  | receive
  | panicWriter (message : String)
  | disconnect
  | take (i : Nat)
  | work (i : Nat) (nonce : Nonce)
  | send (i : Nat)
  | panic (i : Nat) (message : String)
  | refuse (i : Nat) (e : CryoErrors)
  | endPool (result : Except Halt Unit)

def step (job : Job) (move : Move) (s : State K) : Option (State K) :=
  match move with
  | .main => (Threads.step K job (s.view s.pool.working s.pool.sending) .main).map s.withView
  | .receive => (Threads.step K job (s.view s.pool.working s.pool.sending) .receive).map s.withView
  | .panicWriter message =>
    (Threads.step K job (s.view s.pool.working s.pool.sending) (.panicWriter message)).map s.withView
  | .disconnect => (Threads.step K job (s.view s.pool.working s.pool.sending) .disconnect).map s.withView
  | .take i =>
    match s.pool.result, s.pool.raw, s.pool.tasks[i]? with
    | none, b :: raw, some .idle => some { s with
        pool := { s.pool with raw := raw, tasks := s.pool.tasks.set i (.starting b) } }
    | _, _, _ => none
  | .work i nonce => do
    let task ← s.pool.tasks[i]?
    let next ← task.work job nonce s.pool.shared
    some { s with pool := s.pool.advance i next }
  | .send i =>
    match s.pool.tasks[i]?, s.pool.senderPoisoned, s.writer with
    | some (.sending b), false, .running .. => some { s with
        pool := { s.pool with tasks := s.pool.tasks.set i .idle }
        messages := s.messages ++ [.block b] }
    | some (.sending _), _, _ => some { s with
        pool := s.pool.advance i (.error (.err .threadError), s.pool.shared) }
    | _, _, _ => none
  | .panic i message =>
    match s.pool.tasks[i]?, s.pool.senderPoisoned with
    | some (.sending _), false => some { s with
        pool := { s.pool.advance i (.error (.panic message), s.pool.shared) with senderPoisoned := true } }
    | some task, _ => (task.panic message s.pool.shared).map fun next => { s with pool := s.pool.advance i next }
    | none, _ => none
  | .refuse i e => do
    let task ← s.pool.tasks[i]?
    let next ← task.refuse e s.pool.shared
    some { s with pool := s.pool.advance i next }
  | .endPool result =>
    if s.pool.result.isNone ∧ s.pool.working = [] ∧ s.pool.sending = [] ∧
        (s.view s.pool.working s.pool.sending).canEnd result then
      some { s with pool := { s.pool with result := some result } }
    else none

/-- The threads when they start, so many of them in the pool. -/
def spawn (K : Crates) (job : Job) (threads : Nat) (queue : List Path) (path : Option Bytes) : State K where
  path := path
  main := .next queue
  reader := .start
  outbox := []
  pool := ⟨[], List.replicate threads .idle, ⟨[], .free, 0⟩, false, [], none⟩
  messages := []
  writer := .running [] job.archive.index.block.length job.archive

/-! ## What a thread of the pool can do -/

/-- The engines are all made alike. -/
def Made (job : Job) (engine : CompressingEngine K) : Prop :=
  CompressingEngine.new job.archive.header.compression job.archive.header.compressionLevel = .ok engine

/-- **What a step of a thread with a raw block can do**, with the stack before and after. The flag tells whether the
code asks for it, not a panic or a crate that refuses. -/
inductive Task.Step (job : Job) :
    Bool → Task K → Shared K → Except Halt (Task K) → Shared K → Prop where
  | pop {b : RawBlock} {engine : Engine K} {engines : List (Engine K)} {made : Nat} :
    Task.Step job true (.starting b) ⟨engine :: engines, .free, made⟩ (.ok (.processing b engine)) ⟨engines, .free, made⟩
  | lock {b : RawBlock} {made : Nat} :
    Task.Step job true (.starting b) ⟨[], .free, made⟩ (.ok (.creating b)) ⟨[], .held, made⟩
  | create {b : RawBlock} {engine : CompressingEngine K} {shared : Shared K} (hmade : Made job engine) :
    Task.Step job true (.creating b) shared (.ok (.processing b ⟨shared.made, engine⟩))
      ⟨shared.engines, .free, shared.made + 1⟩
  | createFails {b : RawBlock} {shared : Shared K} {e : CryoErrors}
      (hnew : CompressingEngine.new (K := K) job.archive.header.compression job.archive.header.compressionLevel
        = .error e) :
    Task.Step job true (.creating b) shared (.error (.err e)) { shared with lock := .free }
  | process {calm : Bool} {b : RawBlock} {engine : Engine K} {result : Result ProcessedBlock} {shared : Shared K}
      (hresult : calm = true ∨ result.toOption.isSome → ∃ nonce,
        processBlock job.archive.cipher job.archive.header.archiveId engine.engine nonce b = result) :
    Task.Step job calm (.processing b engine) shared (.ok (.returning b engine result)) shared
  | giveBack {b : RawBlock} {engine : Engine K} {p : ProcessedBlock} {engines : List (Engine K)} {made : Nat} :
    Task.Step job true (.returning b engine (.ok p)) ⟨engines, .free, made⟩ (.ok (.sending p))
      ⟨engine :: engines, .free, made⟩
  | giveBackFailed {b : RawBlock} {engine : Engine K} {e : CryoErrors} {engines : List (Engine K)} {made : Nat} :
    Task.Step job true (.returning b engine (.error e)) ⟨engines, .free, made⟩ (.error (.err e))
      ⟨engine :: engines, .free, made⟩
  | poisoned {task : Task K} {b : RawBlock} {engines : List (Engine K)} {made : Nat} (hraw : task.raw = [b])
      (hcreating : task ≠ .creating b) :
    Task.Step job true task ⟨engines, .poisoned, made⟩ (.error (.err .threadError)) ⟨engines, .poisoned, made⟩
  | broken {task : Task K} {b : RawBlock} {h : Halt} {shared : Shared K} {lock : Mutex} (hraw : task.raw = [b])
      (hlock : lock = .held ↔ shared.lock = .held ∧ task ≠ .creating b) :
    Task.Step job false task shared (.error h) { shared with lock := lock }

variable {job : Job} {task : Task K} {shared : Shared K} {next : Except Halt (Task K) × Shared K}

theorem Task.step_of_work {nonce : Nonce} (h : task.work job nonce shared = some next) :
    task.Step job true shared next.1 next.2 := by
  obtain ⟨engines, lock, made⟩ := shared
  cases task with
  | idle | sending => cases h
  | starting b =>
    cases lock with
    | held => cases h
    | poisoned =>
      cases h
      exact .poisoned rfl (by simp)
    | free =>
      cases engines <;> cases h
      · exact .lock
      · exact .pop
  | creating b =>
    simp only [Task.work] at h
    split at h <;> cases h
    · exact .create ‹_›
    · exact .createFails ‹_›
  | processing b engine =>
    cases h
    exact .process fun _ => ⟨nonce, rfl⟩
  | returning b engine result =>
    cases lock with
    | held => cases h
    | poisoned =>
      cases h
      exact .poisoned rfl (by simp)
    | free =>
      cases result <;> cases h
      · exact .giveBackFailed
      · exact .giveBack

theorem Task.step_of_panic {message : String} (h : task.panic message shared = some next) :
    task.Step job false shared next.1 next.2 := by
  cases task with
  | idle | sending => cases h
  | starting b | returning b =>
    simp only [Task.panic] at h
    split at h <;> cases h
    rename_i hfree
    exact .broken rfl (by simp [hfree])
  | creating b =>
    cases h
    exact .broken rfl (by simp)
  | processing b engine =>
    cases h
    exact .broken (b := b) rfl (by simp)

theorem Task.step_of_refuse {e : CryoErrors} (h : task.refuse e shared = some next) :
    task.Step job false shared next.1 next.2 := by
  cases task with
  | idle | sending | starting | returning => cases h
  | creating b =>
    cases h
    exact .broken rfl (by simp)
  | processing b engine =>
    cases h
    exact .process fun hcalm => by rcases hcalm with hcalm | hcalm <;> cases hcalm

/-- A failure that the code does not ask for. -/
def Move.fails : Move → Bool
  | .panicWriter _ | .panic .. | .refuse .. => true
  | _ => false

/-- **What a step can do** but those of the main thread and the writer. -/
inductive PoolStep (job : Job) (s : State K) : Bool → State K → Prop where
  | take {i : Nat} {b : RawBlock} {raw : List RawBlock} (hresult : s.pool.result = none) (hraw : s.pool.raw = b :: raw)
      (htask : s.pool.tasks[i]? = some .idle) :
    PoolStep job s true { s with pool := { s.pool with raw := raw, tasks := s.pool.tasks.set i (.starting b) } }
  | work {calm : Bool} {i : Nat} {task : Task K} {next : Except Halt (Task K) × Shared K}
      (htask : s.pool.tasks[i]? = some task) (hstep : task.Step job calm s.pool.shared next.1 next.2) :
    PoolStep job s calm { s with pool := s.pool.advance i next }
  | send {i : Nat} {b : ProcessedBlock} {q : List ProcessedBlock} {e : Nat} {arch : ArchiveWriter}
      (htask : s.pool.tasks[i]? = some (.sending b)) (hwriter : s.writer = .running q e arch) :
    PoolStep job s true { s with
      pool := { s.pool with tasks := s.pool.tasks.set i .idle }
      messages := s.messages ++ [.block b] }
  | sendFails {i : Nat} {b : ProcessedBlock} (htask : s.pool.tasks[i]? = some (.sending b))
      (hfails : s.pool.senderPoisoned = true ∨ ∃ result arch, s.writer = .ended result arch) :
    PoolStep job s true { s with pool := s.pool.advance i (.error (.err .threadError), s.pool.shared) }
  | panicSend {i : Nat} {b : ProcessedBlock} {message : String} (htask : s.pool.tasks[i]? = some (.sending b)) :
    PoolStep job s false { s with
      pool := { s.pool.advance i (.error (.panic message), s.pool.shared) with senderPoisoned := true } }
  | endPool {result : Except Halt Unit} (hresult : s.pool.result = none) (hworking : s.pool.working = [])
      (hsending : s.pool.sending = []) (hcan : (s.view s.pool.working s.pool.sending).canEnd result = true) :
    PoolStep job s true { s with pool := { s.pool with result := some result } }

/-- A move of the main thread or of the writer. -/
def Move.outer : Move → Option Threads.Move
  | .main => some .main
  | .receive => some .receive
  | .panicWriter message => some (.panicWriter message)
  | .disconnect => some .disconnect
  | _ => none

theorem step_outer {move : Move} {m : Threads.Move} (houter : move.outer = some m) (s : State K) :
    step job move s = (Threads.step K job (s.view s.pool.working s.pool.sending) m).map s.withView := by
  cases move <;> cases houter <;> rfl

theorem poolStep_of_step {move : Move} {s s' : State K} (houter : move.outer = none) (h : step job move s = some s') :
    PoolStep job s (!move.fails) s' := by
  cases move with
  | main | receive | panicWriter | disconnect => cases houter
  | take i =>
    simp only [step] at h
    split at h
    · cases h
      exact .take ‹_› ‹_› ‹_›
    · cases h
  | work i nonce =>
    obtain ⟨task, htask, h⟩ := Option.bind_eq_some_iff.1 h
    obtain ⟨next, hnext, h⟩ := Option.bind_eq_some_iff.1 h
    cases h
    exact .work htask (Task.step_of_work hnext)
  | refuse i e =>
    obtain ⟨task, htask, h⟩ := Option.bind_eq_some_iff.1 h
    obtain ⟨next, hnext, h⟩ := Option.bind_eq_some_iff.1 h
    cases h
    exact .work htask (Task.step_of_refuse hnext)
  | send i =>
    simp only [step] at h
    split at h
    · cases h
      exact .send ‹_› ‹_›
    · rename_i b poisoned writer htask hcases
      cases h
      refine .sendFails htask ?_
      cases hp : s.pool.senderPoisoned with
      | true => exact .inl rfl
      | false =>
        have hended : ∀ q e arch, s.writer ≠ .running q e arch := by simpa [hp] using hcases
        cases hw : s.writer with
        | running q e arch => exact absurd hw (hended q e arch)
        | ended result arch => exact .inr ⟨result, arch, rfl⟩
    · cases h
  | panic i message =>
    simp only [step] at h
    split at h
    · cases h
      exact .panicSend ‹_›
    · obtain ⟨next, hnext, rfl⟩ := Option.map_eq_some_iff.1 h
      exact .work ‹_› (Task.step_of_panic hnext)
    · cases h
  | endPool result =>
    simp only [step] at h
    split at h
    · rename_i hend
      obtain ⟨hresult, hworking, hsending, hcan⟩ := hend
      cases h
      exact .endPool (Option.isNone_iff_eq_none.1 hresult) hworking hsending hcan
    · cases h

/-! ## The engines are made alike -/

/-- The engine of a task is one that the job asks for, and its result is that of the job on the block. In a clean run
that goes for errors too. -/
def Task.Sound (job : Job) (clean : Prop) : Task K → Prop
  | .processing _ engine => Made job engine.engine
  | .returning b engine result =>
    Made job engine.engine ∧ (clean ∨ result.toOption.isSome → ∃ nonce, job.work K nonce b = result)
  | _ => True

structure Shared.Sound (job : Job) (clean : Prop) (shared : Shared K) : Prop where
  engines : ∀ engine ∈ shared.engines, Made job engine.engine
  lock : clean → shared.lock ≠ .poisoned

structure Pool.Sound (job : Job) (clean : Prop) (pool : Pool K) : Prop where
  tasks : ∀ task ∈ pool.tasks, task.Sound job clean
  shared : pool.shared.Sound job clean
  sender : clean → pool.senderPoisoned = false

section
variable {clean : Prop} {calm : Bool} {s s' : State K}

/-- An engine that the job asks for works as a new one. -/
theorem Made.work {engine : CompressingEngine K} (h : Made job engine) (nonce : Nonce) (b : RawBlock) :
    job.work K nonce b = processBlock job.archive.cipher job.archive.header.archiveId engine nonce b := by
  unfold Job.work workerTask
  rw [h]
  rfl

theorem Task.Step.sound {task : Task K} {shared shared' : Shared K} {next : Except Halt (Task K)}
    (h : task.Step job calm shared next shared') (hcalm : clean → calm = true) (htask : task.Sound job clean)
    (hshared : shared.Sound job clean) : (∀ t, next = .ok t → t.Sound job clean) ∧ shared'.Sound job clean := by
  cases h with
  | pop =>
    obtain ⟨hengine, hengines⟩ := List.forall_mem_cons.1 hshared.engines
    exact ⟨fun t ht => by cases ht; exact hengine, hengines, fun _ => by simp⟩
  | lock => exact ⟨fun t ht => by cases ht; trivial, by simp, fun _ => by simp⟩
  | create hmade => exact ⟨fun t ht => by cases ht; exact hmade, hshared.engines, fun _ => by simp⟩
  | createFails => exact ⟨fun t ht => (by cases ht), hshared.engines, fun _ => by simp⟩
  | process hresult =>
    refine ⟨fun t ht => ?_, hshared⟩
    cases ht
    refine ⟨htask, fun hwork => ?_⟩
    obtain ⟨nonce, hblock⟩ := hresult (hwork.imp_left hcalm)
    exact ⟨nonce, (Made.work htask nonce _).trans hblock⟩
  | giveBack =>
    exact ⟨fun t ht => by cases ht; trivial, List.forall_mem_cons.2 ⟨htask.1, hshared.engines⟩, fun _ => by simp⟩
  | giveBackFailed =>
    exact ⟨fun t ht => (by cases ht), List.forall_mem_cons.2 ⟨htask.1, hshared.engines⟩, fun _ => by simp⟩
  | poisoned => exact ⟨fun t ht => (by cases ht), hshared⟩
  | broken => exact ⟨fun t ht => (by cases ht), hshared.engines, fun hclean => absurd (hcalm hclean) (by simp)⟩

/-- A task in the place of another. -/
theorem Pool.Sound.set {pool : Pool K} (h : pool.Sound job clean) {i : Nat} {task : Task K}
    (htask : task.Sound job clean) : ∀ t ∈ pool.tasks.set i task, t.Sound job clean := fun t ht =>
  (List.mem_or_eq_of_mem_set ht).elim (h.tasks t) fun heq => heq ▸ htask

theorem Pool.Sound.advance {pool : Pool K} (h : pool.Sound job clean) {i : Nat}
    {next : Except Halt (Task K) × Shared K} (hnext : ∀ t, next.1 = .ok t → t.Sound job clean)
    (hshared : next.2.Sound job clean) : (pool.advance i next).Sound job clean := by
  obtain ⟨task | e, shared⟩ := next
  · exact ⟨h.set trivial, hshared, h.sender⟩
  · exact ⟨h.set (hnext _ rfl), hshared, h.sender⟩

/-- **The engines stay alike**, and what was processed stays the work of the job. -/
theorem PoolStep.sound (h : PoolStep job s calm s') (hcalm : clean → calm = true) (hsound : s.pool.Sound job clean) :
    s'.pool.Sound job clean := by
  cases h with
  | take => exact ⟨hsound.set trivial, hsound.shared, hsound.sender⟩
  | work htask hstep =>
    obtain ⟨hnext, hshared⟩ := hstep.sound hcalm (hsound.tasks _ (List.mem_of_getElem? htask)) hsound.shared
    exact hsound.advance hnext hshared
  | send => exact ⟨hsound.set trivial, hsound.shared, hsound.sender⟩
  | sendFails => exact ⟨hsound.set trivial, hsound.shared, hsound.sender⟩
  | panicSend =>
    exact ⟨hsound.set trivial, hsound.shared, fun hclean => absurd (hcalm hclean) (by simp)⟩
  | endPool => exact ⟨hsound.tasks, hsound.shared, hsound.sender⟩

end

/-! ## Every engine has one holder -/

/-- The engines there are: on the stack, or with a thread. -/
def Pool.alive (pool : Pool K) : List (Engine K) := pool.shared.engines ++ pool.tasks.flatMap Task.engine

/-- A thread that is in `CompressingEngine::new`. -/
def Task.makes : Task K → Nat
  | .creating _ => 1
  | _ => 0

/-- The engines of a thread, one that it is making counted. -/
def Task.uses (task : Task K) : Nat := task.engine.length + task.makes

theorem Task.uses_le (task : Task K) : task.uses ≤ 1 := by
  cases task <;> simp [Task.uses, Task.engine, Task.makes]

/-- **The engines that are lent**: no number twice, no more engines than threads, all that were made but those of threads
that failed, and the lock held by the thread that makes one. -/
structure Pool.Lent (pool : Pool K) : Prop where
  nodup : (pool.alive.map Engine.number).Nodup
  number : ∀ engine ∈ pool.alive, engine.number < pool.shared.made
  few : pool.shared.engines.length + (pool.tasks.map Task.uses).sum ≤ pool.tasks.length
  made : pool.shared.made ≤ pool.alive.length + pool.failures.length
  lock : (pool.tasks.map Task.makes).sum = if pool.shared.lock = .held then 1 else 0

/-- What a step can do to the engines there are: nothing, make one, or drop one with a failure. -/
inductive Exchange (pool pool' : Pool K) : Prop where
  | same (halive : pool'.alive.Perm pool.alive) (hmade : pool'.shared.made = pool.shared.made)
      (hfailures : pool.failures.length ≤ pool'.failures.length)
  | made {engine : Engine K} (halive : pool'.alive.Perm (engine :: pool.alive)) (hnumber : engine.number = pool.shared.made)
      (hmade : pool'.shared.made = pool.shared.made + 1) (hfailures : pool.failures.length ≤ pool'.failures.length)
  | dropped {engine : Engine K} (halive : (engine :: pool'.alive).Perm pool.alive)
      (hmade : pool'.shared.made = pool.shared.made) (hfailures : pool'.failures.length = pool.failures.length + 1)

section
variable {calm : Bool} {s s' : State K} {i : Nat} {task : Task K}

theorem alive_same {row : List (Task K)} (htask : row[i]? = some task) (task' : Task K) (h : task'.engine = task.engine)
    (engines : List (Engine K)) :
    (engines ++ (row.set i task').flatMap Task.engine).Perm (engines ++ row.flatMap Task.engine) :=
  (Gather.flatMap_set_of_eq htask h).append_left engines

theorem alive_gain {row : List (Task K)} (htask : row[i]? = some task) (ha : task.engine = []) {task' : Task K}
    {engine : Engine K} (hb : task'.engine = [engine]) (engines : List (Engine K)) :
    (engines ++ (row.set i task').flatMap Task.engine).Perm (engine :: (engines ++ row.flatMap Task.engine)) :=
  ((Gather.flatMap_set_gain htask ha hb).append_left engines).trans List.perm_middle

theorem alive_lose {row : List (Task K)} (htask : row[i]? = some task) {engine : Engine K} (ha : task.engine = [engine])
    {task' : Task K} (hb : task'.engine = []) (engines : List (Engine K)) :
    (engine :: (engines ++ (row.set i task').flatMap Task.engine)).Perm (engines ++ row.flatMap Task.engine) :=
  List.perm_middle.symm.trans ((Gather.flatMap_set_lose htask ha hb).append_left engines)

/-- A thread that fails drops the engine it has. -/
theorem Exchange.of_failure {pool : Pool K} (htask : pool.tasks[i]? = some task) (h : Halt) {shared : Shared K}
    (hengines : shared.engines = pool.shared.engines) (hmade : shared.made = pool.shared.made) :
    Exchange pool (pool.advance i (.error h, shared)) := by
  cases hengine : task.engine with
  | nil =>
    refine .same ?_ hmade (Nat.le_succ _)
    show (shared.engines ++ _).Perm _
    rw [hengines]
    exact alive_same htask .idle hengine.symm _
  | cons engine rest =>
    obtain rfl : rest = [] := by
      cases task <;> cases hengine <;> rfl
    have halive : (engine :: (pool.advance i (.error h, shared)).alive).Perm pool.alive := by
      show (engine :: (shared.engines ++ _)).Perm _
      rw [hengines]
      exact alive_lose htask hengine rfl _
    exact .dropped halive hmade rfl

theorem Task.Step.exchange {pool : Pool K} {next : Except Halt (Task K)} {shared : Shared K}
    (h : task.Step job calm pool.shared next shared) (htask : pool.tasks[i]? = some task) :
    Exchange pool (pool.advance i (next, shared)) := by
  have hold : pool.alive = pool.shared.engines ++ pool.tasks.flatMap Task.engine := rfl
  generalize hs : pool.shared = before at h hold
  cases h with
  | pop =>
    refine .same ?_ (by rw [hs]; rfl) (Nat.le_refl _)
    rw [hold]
    exact alive_gain htask rfl rfl _
  | lock =>
    refine .same ?_ (by rw [hs]; rfl) (Nat.le_refl _)
    rw [hold]
    exact alive_same htask (.creating _) rfl _
  | create hmade =>
    rename_i b engine
    have halive : (pool.advance i (.ok (.processing b ⟨before.made, engine⟩), ⟨before.engines, .free, before.made + 1⟩)
        ).alive.Perm (⟨before.made, engine⟩ :: pool.alive) := by
      rw [hold]
      exact alive_gain htask rfl rfl _
    exact .made halive (by rw [hs]) (by rw [hs]; rfl) (Nat.le_refl _)
  | process =>
    refine .same ?_ (by rw [hs]; rfl) (Nat.le_refl _)
    rw [hold]
    exact alive_same htask (.returning _ _ _) rfl _
  | giveBack =>
    refine .same ?_ (by rw [hs]; rfl) (Nat.le_refl _)
    rw [hold]
    exact alive_lose htask rfl rfl _
  | giveBackFailed =>
    refine .same ?_ (by rw [hs]; rfl) (Nat.le_succ _)
    rw [hold]
    exact alive_lose htask rfl rfl _
  | createFails => exact .of_failure htask _ (by rw [hs]) (by rw [hs])
  | poisoned => exact .of_failure htask _ (by rw [hs]) (by rw [hs])
  | broken => exact .of_failure htask _ (by rw [hs]) (by rw [hs])

theorem PoolStep.exchange (h : PoolStep job s calm s') : Exchange s.pool s'.pool := by
  cases h with
  | take hresult hraw htask => exact .same (alive_same htask (.starting _) rfl _) rfl (Nat.le_refl _)
  | work htask hstep => exact hstep.exchange htask
  | send htask => exact .same (alive_same htask .idle rfl _) rfl (Nat.le_refl _)
  | sendFails htask => exact .of_failure htask _ rfl rfl
  | panicSend htask => exact .same (alive_same htask .idle rfl _) rfl (Nat.le_succ _)
  | endPool => exact .same (.refl _) rfl (Nat.le_refl _)

/-- What a step of a thread does to the lock and to the number of engines that it uses. -/
theorem Task.Step.locks {shared shared' : Shared K} {next : Except Halt (Task K)} (h : task.Step job calm shared next shared')
    {task' : Task K} (hnext : next = .ok task' ∨ task' = .idle ∧ ∃ e, next = .error e) :
    (shared'.engines.length + task'.uses ≤ shared.engines.length + task.uses ∨ shared'.engines = []) ∧
      (task.makes = 1 ∧ task'.makes = 0 ∧ shared'.lock ≠ .held ∨
        task.makes = 0 ∧ task'.makes = 1 ∧ shared.lock ≠ .held ∧ shared'.lock = .held ∨
        task.makes = task'.makes ∧ task.makes = 0 ∧ (shared'.lock = .held ↔ shared.lock = .held)) := by
  have hidle : ∀ {e : Halt}, next = .error e → task' = .idle := fun he => by
    rcases hnext with hnext | ⟨rfl, _⟩
    · rw [he] at hnext
      cases hnext
    · rfl
  have hok : ∀ {t : Task K}, next = .ok t → task' = t := fun ht => by
    rcases hnext with hnext | ⟨_, e, he⟩
    · exact Except.ok.inj (hnext.symm.trans ht)
    · rw [ht] at he
      cases he
  cases h with
  | pop | lock | create | process | giveBack =>
    obtain rfl := hok rfl
    simp [Task.uses, Task.engine, Task.makes]
    try omega
  | createFails | giveBackFailed =>
    obtain rfl := hidle rfl
    simp [Task.uses, Task.engine, Task.makes]
    try omega
  | poisoned hraw hcreating =>
    obtain rfl := hidle rfl
    cases task <;> simp_all [Task.uses, Task.engine, Task.makes, Task.raw]
  | broken hraw hlock =>
    obtain rfl := hidle rfl
    cases task <;> simp_all [Task.uses, Task.engine, Task.makes, Task.raw]

/-- What an exchange keeps of the numbers. -/
theorem Exchange.keeps {pool pool' : Pool K} (h : Exchange pool pool') (hnodup : (pool.alive.map Engine.number).Nodup)
    (hnumber : ∀ engine ∈ pool.alive, engine.number < pool.shared.made)
    (hmade : pool.shared.made ≤ pool.alive.length + pool.failures.length) :
    (pool'.alive.map Engine.number).Nodup ∧ (∀ engine ∈ pool'.alive, engine.number < pool'.shared.made) ∧
      pool'.shared.made ≤ pool'.alive.length + pool'.failures.length := by
  cases h with
  | same halive hsame hfailures =>
    refine ⟨(halive.map _).nodup_iff.2 hnodup, fun engine hmem => ?_, ?_⟩
    · rw [hsame]
      exact hnumber engine (halive.subset hmem)
    · rw [hsame, halive.length_eq]
      omega
  | made halive hnew hsucc hfailures =>
    rename_i engine
    have hfresh : engine.number ∉ pool.alive.map Engine.number := fun hmem => by
      obtain ⟨old, hold, heq⟩ := List.mem_map.1 hmem
      have := hnumber old hold
      omega
    refine ⟨(halive.map _).nodup_iff.2 (List.nodup_cons.2 ⟨hfresh, hnodup⟩), fun e hmem => ?_, ?_⟩
    · rw [hsucc]
      rcases List.mem_cons.1 (halive.subset hmem) with rfl | hmem
      · omega
      · have := hnumber e hmem
        omega
    · have hlength := halive.length_eq
      simp only [List.length_cons] at hlength
      omega
  | dropped halive hsame hfailures =>
    have hlength := halive.length_eq
    simp only [List.length_cons] at hlength
    refine ⟨(List.nodup_cons.1 ((halive.map _).nodup_iff.2 hnodup)).2, fun engine hmem => ?_, by omega⟩
    rw [hsame]
    exact hnumber engine (halive.subset (List.mem_cons_of_mem _ hmem))

theorem sum_uses_le (row : List (Task K)) : (row.map Task.uses).sum ≤ row.length := by
  have hle := List.sum_le_card_nsmul (row.map Task.uses) 1 fun n hn => by
    obtain ⟨task, _, rfl⟩ := List.mem_map.1 hn
    exact task.uses_le
  simpa using hle

/-- A thread takes a step with the stack or without. -/
theorem Pool.Lent.set {pool : Pool K} (h : pool.Lent) (htask : pool.tasks[i]? = some task) {task' : Task K}
    {shared' : Shared K} (huses : shared'.engines.length + task'.uses ≤ pool.shared.engines.length + task.uses ∨
      shared'.engines = [])
    (hmakes : task.makes = 1 ∧ task'.makes = 0 ∧ shared'.lock ≠ .held ∨
        task.makes = 0 ∧ task'.makes = 1 ∧ pool.shared.lock ≠ .held ∧ shared'.lock = .held ∨
        task.makes = task'.makes ∧ task.makes = 0 ∧ (shared'.lock = .held ↔ pool.shared.lock = .held)) :
    shared'.engines.length + ((pool.tasks.set i task').map Task.uses).sum ≤ (pool.tasks.set i task').length ∧
      ((pool.tasks.set i task').map Task.makes).sum = if shared'.lock = .held then 1 else 0 := by
  have hsum := Gather.sum_set Task.uses htask task'
  have hcount := Gather.sum_set Task.makes htask task'
  have hfew := h.few
  have hlock := h.lock
  constructor
  · rcases huses with hle | hnil
    · rw [List.length_set]
      omega
    · rw [hnil]
      exact Nat.zero_add _ ▸ sum_uses_le _
  · rcases hmakes with ⟨h1, h2, hfree⟩ | ⟨h1, h2, hfree, hheld⟩ | ⟨h1, h2, hiff⟩
    · rw [if_neg hfree]
      split at hlock <;> omega
    · rw [if_pos hheld]
      rw [if_neg hfree] at hlock
      omega
    · simp only [hiff]
      omega

/-- **The engines stay lent.** -/
theorem PoolStep.lent (h : PoolStep job s calm s') (hlent : s.pool.Lent) : s'.pool.Lent := by
  obtain ⟨hnodup, hnumber, hmade⟩ := h.exchange.keeps hlent.nodup hlent.number hlent.made
  suffices hrest : s'.pool.shared.engines.length + (s'.pool.tasks.map Task.uses).sum ≤ s'.pool.tasks.length ∧
      (s'.pool.tasks.map Task.makes).sum = if s'.pool.shared.lock = .held then 1 else 0 from
    ⟨hnodup, hnumber, hrest.1, hmade, hrest.2⟩
  cases h with
  | take hresult hraw htask => exact hlent.set htask (.inl (Nat.le_refl _)) (.inr (.inr ⟨rfl, rfl, Iff.rfl⟩))
  | work htask hstep =>
    rename_i i task next
    obtain ⟨next, shared⟩ := next
    cases next with
    | ok task' =>
      obtain ⟨huses, hmakes⟩ := hstep.locks (.inl rfl)
      exact hlent.set htask huses hmakes
    | error e =>
      obtain ⟨huses, hmakes⟩ := hstep.locks (.inr ⟨rfl, e, rfl⟩)
      exact hlent.set htask huses hmakes
  | send htask => exact hlent.set htask (.inl (Nat.le_refl _)) (.inr (.inr ⟨rfl, rfl, Iff.rfl⟩))
  | sendFails htask => exact hlent.set htask (.inl (Nat.le_refl _)) (.inr (.inr ⟨rfl, rfl, Iff.rfl⟩))
  | panicSend htask => exact hlent.set htask (.inl (Nat.le_refl _)) (.inr (.inr ⟨rfl, rfl, Iff.rfl⟩))
  | endPool => exact ⟨hlent.few, hlent.lock⟩

end

/-! ## Whole runs -/

section
variable {clean : Prop} {s s' : State K} {move : Move}

/-- The main thread and the writer leave the engines alone. -/
theorem outer_engines {m : Threads.Move} (houter : move.outer = some m) (h : step job move s = some s') :
    s'.pool = { s.pool with raw := s'.pool.raw } := by
  rw [step_outer houter] at h
  obtain ⟨v, _, rfl⟩ := Option.map_eq_some_iff.1 h
  rfl

theorem lent_step (hlent : s.pool.Lent) (h : step job move s = some s') : s'.pool.Lent := by
  cases houter : move.outer with
  | none => exact (poolStep_of_step houter h).lent hlent
  | some m =>
    rw [outer_engines houter h]
    exact ⟨hlent.nodup, hlent.number, hlent.few, hlent.made, hlent.lock⟩

theorem sound_step (hcalm : clean → move.fails = false) (hsound : s.pool.Sound job clean)
    (h : step job move s = some s') : s'.pool.Sound job clean := by
  cases houter : move.outer with
  | none => exact (poolStep_of_step houter h).sound (fun hc => by rw [hcalm hc]; rfl) hsound
  | some m =>
    rw [outer_engines houter h]
    exact ⟨hsound.tasks, hsound.shared, hsound.sender⟩

theorem Pool.length_advance (pool : Pool K) (i : Nat) (next : Except Halt (Task K) × Shared K) :
    (pool.advance i next).tasks.length = pool.tasks.length := by
  obtain ⟨_ | _, _⟩ := next <;> exact List.length_set

theorem PoolStep.length {calm : Bool} (h : PoolStep job s calm s') : s'.pool.tasks.length = s.pool.tasks.length := by
  cases h with
  | take | send | panicSend => exact List.length_set
  | work | sendFails => exact Pool.length_advance ..
  | endPool => rfl

theorem length_step (h : step job move s = some s') : s'.pool.tasks.length = s.pool.tasks.length := by
  cases houter : move.outer with
  | none => exact (poolStep_of_step houter h).length
  | some m => rw [outer_engines houter h]

theorem lent_spawn (K : Crates) (job : Job) (threads : Nat) (queue : List Path) (path : Option Bytes) :
    (spawn K job threads queue path).pool.Lent := by
  have halive : (spawn K job threads queue path).pool.alive = [] := by
    simp [spawn, Pool.alive, Task.engine]
  refine ⟨by simp [halive], by simp [halive], ?_, ?_, ?_⟩
  · simp [spawn, Task.uses, Task.engine, Task.makes]
  · exact Nat.zero_le _
  · simp [spawn, Task.makes]

theorem sound_spawn (job : Job) (clean : Prop) (threads : Nat) (queue : List Path) (path : Option Bytes) :
    (spawn K job threads queue path).pool.Sound job clean := by
  refine ⟨fun task hmem => ?_, ⟨by simp [spawn], fun _ => by simp [spawn]⟩, fun _ => rfl⟩
  obtain rfl := List.eq_of_mem_replicate hmem
  trivial

/-- No more engines than the threads use. -/
theorem Pool.Lent.alive_le {pool : Pool K} (h : pool.Lent) : pool.alive.length ≤ pool.tasks.length := by
  have hheld : ∀ row : List (Task K), (row.flatMap Task.engine).length ≤ (row.map Task.uses).sum := fun row => by
    induction row with
    | nil => simp
    | cons task row ih =>
      simp only [List.flatMap_cons, List.length_append, List.map_cons, List.sum_cons, Task.uses] at ih ⊢
      omega
  have hfew := h.few
  have := hheld pool.tasks
  unfold Pool.alive
  rw [List.length_append]
  omega

/-- The thread that makes an engine is alone. -/
theorem Pool.Lent.creating {pool : Pool K} (h : pool.Lent) {i j : Nat} {b b' : RawBlock}
    (hi : pool.tasks[i]? = some (.creating b)) (hj : pool.tasks[j]? = some (.creating b')) : i = j := by
  have hsum : (pool.tasks.flatMap fun task => List.replicate task.makes ()).length ≤ 1 := by
    have hle : (pool.tasks.map Task.makes).sum ≤ 1 := by
      rw [h.lock]
      split <;> omega
    rw [List.length_flatMap]
    simpa using hle
  have hnodup : (pool.tasks.flatMap fun task => List.replicate task.makes ()).Nodup := by
    generalize pool.tasks.flatMap (fun task => List.replicate task.makes ()) = units at hsum
    match units, hsum with
    | [], _ => exact List.nodup_nil
    | [u], _ => exact List.nodup_singleton u
    | _ :: _ :: _, hlong => simp at hlong
  exact Gather.index_unique hnodup hi hj (x := ()) (by simp [Task.makes]) (by simp [Task.makes])

end

/-- What holds of the pool after every run. -/
theorem lent_run {threads : Nat} {queue : List Path} {path : Option Bytes} {moves : List Move} {s : State K}
    (hrun : Progress.steps (step job) moves (spawn K job threads queue path) = some s) :
    s.pool.Lent ∧ s.pool.tasks.length = threads :=
  Progress.steps_keeps (I := fun s => s.pool.Lent ∧ s.pool.tasks.length = threads)
    (fun _ h hs => ⟨lent_step h.1 hs, (length_step hs).trans h.2⟩) (fun _ _ => trivial)
    ⟨lent_spawn K job threads queue path, by simp [spawn]⟩ hrun

/-- **An engine has one holder.** In every schedule, whatever fails in it: no two threads have the same engine, and none
has one that is on the stack; one thread at most makes an engine; there are no more engines than threads, each made as the
header says, and as many more were made at most as threads have failed. -/
theorem engines_exclusive {threads : Nat} {queue : List Path} {path : Option Bytes} {moves : List Move} {s : State K}
    (hrun : Progress.steps (step job) moves (spawn K job threads queue path) = some s) :
    (∀ (i j : Nat) (task task' : Task K), s.pool.tasks[i]? = some task → s.pool.tasks[j]? = some task' →
      ∀ e ∈ task.engine, ∀ e' ∈ task'.engine, e.number = e'.number → i = j) ∧
    (∀ (i : Nat) (task : Task K), s.pool.tasks[i]? = some task →
      ∀ e ∈ task.engine, ∀ e' ∈ s.pool.shared.engines, e.number ≠ e'.number) ∧
    (∀ (i j : Nat) (b b' : RawBlock), s.pool.tasks[i]? = some (.creating b) →
      s.pool.tasks[j]? = some (.creating b') → i = j) ∧
    s.pool.alive.length ≤ threads ∧ s.pool.shared.made ≤ threads + s.pool.failures.length ∧
    ∀ e ∈ s.pool.alive, Made job e.engine := by
  obtain ⟨hlent, hlength⟩ := lent_run hrun
  have hsound : s.pool.Sound job False := Progress.steps_keeps (I := fun s => s.pool.Sound job False)
    (fun _ h hs => sound_step False.elim h hs) (fun _ _ => trivial) (sound_spawn job False threads queue path) hrun
  have hnodup := hlent.nodup
  have hfew := hlent.alive_le
  have hmade := hlent.made
  unfold Pool.alive at hnodup
  rw [List.map_append, List.nodup_append, List.map_flatMap] at hnodup
  obtain ⟨_, hheld, hapart⟩ := hnodup
  refine ⟨fun i j task task' hi hj e he e' he' heq => ?_, fun i task hi e he e' he' => ?_,
    fun i j b b' hi hj => hlent.creating hi hj, by omega, by omega, fun e he => ?_⟩
  · exact Gather.index_unique hheld hi hj (List.mem_map_of_mem he) (heq ▸ List.mem_map_of_mem he')
  · exact (hapart e'.number (List.mem_map_of_mem he') e.number (List.mem_flatMap.2
      ⟨task, List.mem_of_getElem? hi, List.mem_map_of_mem he⟩)).symm
  · rcases List.mem_append.1 he with he | he
    · exact hsound.shared.engines e he
    · obtain ⟨task, htask, he⟩ := List.mem_flatMap.1 he
      have hown := hsound.tasks task htask
      cases task with
      | processing b engine =>
        obtain rfl := List.mem_singleton.1 he
        exact hown
      | returning b engine result =>
        obtain rfl := List.mem_singleton.1 he
        exact hown.1
      | idle | starting | creating | sending => cases he

/-- A schedule for a file of two blocks, which two threads process at once, each with an engine of its own; the second
block overtakes the first. -/
def crossing : List Move :=
  let nonce : Nonce := Vector.replicate 12 0
  [.main, .main, .main, .take 0, .work 0 nonce, .main, .main, .main, .main, .take 1, .main, .work 0 nonce, .work 1 nonce,
    .work 1 nonce, .work 1 nonce, .work 1 nonce, .send 1, .receive, .work 0 nonce, .work 0 nonce, .send 0,
    .endPool (.ok ()), .main, .receive, .receive, .main]

/-- Two threads at work, each with an engine. -/
theorem engines_exclusive_two :
    let K := Crates.tabled [Header.stored 2] [indexOfA]
    ∃ s : State K, Progress.steps (step Job.small) (crossing.take 14)
        (spawn K Job.small 2 [[.normal "src", .normal "a"]] (some Job.small.archive.writer.bytes)) = some s ∧
      s.pool.alive.map Engine.number = [0, 1] ∧ s.pool.alive.length ≤ 2 := by
  intro K
  have hshown : (Progress.steps (step (K := K) Job.small) (crossing.take 14) (spawn K Job.small 2
      [[.normal "src", .normal "a"]] (some Job.small.archive.writer.bytes))).map
        (fun s => s.pool.alive.map Engine.number) = some [0, 1] := by decide +kernel
  obtain ⟨s, hrun, hs⟩ := Option.map_eq_some_iff.1 hshown
  exact ⟨s, hrun, hs, (engines_exclusive hrun).2.2.2.1⟩

end Engines

end Cryo
