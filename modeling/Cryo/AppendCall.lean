import Cryo.Append
import Cryo.Lib.Disk
import Cryo.Lib.Interleave
import Cryo.Threads
import Cryo.TmpFile

/-!
# An append on the disk

`append_file` as it works on the disk, step by step: `create_tmp_file`, `fs::copy` to that name piece by piece, the
closure that opens both files, loads the archive, starts the threads, scans and reads, ends the threads and renames, and
the removal of the copy when the closure failed. The pool and the writer are those of a compression (`Threads.step`);
they go on when the main thread has left the closure early. Every call to the operating system can also fail.

* `AppendCall.Inv`, `inv_step`, `inv_run`: where the copy is in every stage, and that nothing else has changed.
* `append_atomic_iff`: a call that returns `Err` leaves the archive and no copy, except where `fs::copy` failed
  half-way.
* `copy_left`: a copy that is left.
-/

namespace Cryo

open Posix

variable (K : Crates)

/-! ## The call -/

/-- What a call works on, and with what arguments. -/
structure AppendTask where
  /-- The directory of the archive. -/
  dir : Loc
  /-- The number that the file system gives to a file the call makes. -/
  fresh : Nat
  setup : AppendSetup
  env : Env
  args : AppendArgs

/-- Where the name of a path in the directory of the archive is. -/
def AppendTask.loc (task : AppendTask) (p : Path) : Loc := task.dir ++ [p.fileName.getD ""]

def AppendTask.archive (task : AppendTask) : Loc := task.loc task.args.archivePath

/-- The threads of a call, with the file that the writer has open. -/
structure Running where
  file : Nat
  job : Threads.Job
  state : Threads.State

/-- Where the main thread is. -/
inductive Stage where
  | start
  /-- At the opening of both files in `fs::copy`. -/
  | copy
  | copying (src dst : Nat) (done : Nat)
  | openTmp
  | openArchive (file : Nat)
  | load (file archive : Nat)
  /-- The threads are started. -/
  | scan
  /-- In the loop over the paths, and at the joins. -/
  | read
  | rename
  /-- The closure has returned this error. -/
  | cleanup (e : CryoErrors)
  | returned (result : Result Unit)
  | panicked (message : String)

structure AppendCall where
  stage : Stage
  tmp : Path
  threads : Option Running

def AppendCall.start : AppendCall := ⟨.start, [], none⟩

inductive AppendMove where
  /-- The main thread takes its next step. -/
  | main
  /-- `fs::copy` gets on by so many bytes. -/
  | copied (n : Nat)
  /-- The call to the operating system that the main thread is at fails. -/
  | fail (e : Errno)
  | thread (move : Threads.Move)

/-! ## The steps -/

/-- The archive is loaded, and the copy set to where the index was. -/
def loadArchive (task : AppendTask) (bytes : Bytes) : Result FileStructs := do
  let structs ← retrieve K bytes task.args.archivePath Limits.default task.setup.prompts task.args.confirm
  ioFailed task.args.archivePath (seekStart structs.footer.indexOffset)
  .ok structs

/-- The threads when they start, on the copy: nothing is queued before the scan. -/
def AppendTask.spawn (task : AppendTask) (file : Nat) (structs : FileStructs) (bytes : Bytes) : Running :=
  let arch := structs.reopen bytes task.setup.faults
  let job : Threads.Job := ⟨task.env.os, [], structs.header.blockSize, arch, task.env.draws.indexNonce⟩
  { file := file
    job := job
    state := { Threads.spawn job [] none with
      reader := .resume structs.index.files structs.index.totalStreamSize structs.index.block.length } }

/-- The main thread leaves the closure, and drops its senders. -/
def AppendCall.leave (c : AppendCall) (r : Running) (e : CryoErrors) : AppendCall :=
  { c with
    stage := .cleanup e
    threads := some { r with state := { r.state with main := .returned (.error e), outbox := [] } } }

def AppendCall.withMain (c : AppendCall) (r : Running) (main : Threads.Main) : AppendCall :=
  { c with threads := some { r with state := { r.state with main := main } } }

variable {K}

/-- In the loop and at the joins. A failed read leaves at once; nobody sees that `Finalize` is lost. -/
def readStep (c : AppendCall) (r : Running) : Option AppendCall :=
  match r.state.outbox, r.state.main with
  | [], .done (.error e) => some (c.leave r e)
  | [], .joining _ =>
    match r.state.pool.result with
    | none => none
    | some result =>
      match Threads.joined result with
      | .error e => some (c.leave r e)
      | .ok () =>
        match r.state.writer with
        | .running .. => some { c with threads := some { r with state := { r.state with
            messages := r.state.messages ++ [.finalize r.state.reader.files r.state.reader.streamPosition]
            main := .waiting } } }
        | .ended .. => some (c.withMain r .waiting)
  | [], .waiting =>
    match r.state.writer with
    | .running .. => none
    | .ended result _ =>
      match Threads.joined result with
      | .error e => some (c.leave r e)
      | .ok () => some { c with stage := .rename }
  | [], .panicked message => some { c with stage := .panicked message }
  | _, _ => (Threads.mainStep r.job r.state).map fun s => { c with threads := some { r with state := s } }

/-- The next step of the main thread. -/
def appendStep (K : Crates) (task : AppendTask) (d : Disk) (c : AppendCall) : Option (Disk × AppendCall) :=
  match c.stage with
  | .start =>
    match createTmpFile task.args.archivePath with
    | .error e => some (d, { c with stage := .returned (.error e) })
    | .ok tmp => some (d, { c with stage := .copy, tmp := tmp })
  | .copy =>
    match d.opens task.archive with
    | none => some (d, { c with stage := .returned (.error .writeError) })
    | some src =>
      match d.create task.fresh (task.loc c.tmp) with
      | none => some (d, { c with stage := .returned (.error .writeError) })
      | some (dst, d') => some (d', { c with stage := .copying src dst 0 })
  | .copying src _ done =>
    if ((d.content src).getD []).length ≤ done then some (d, { c with stage := .openTmp }) else none
  | .openTmp =>
    match d.opens (task.loc c.tmp) with
    | none => some (d, { c with stage := .cleanup (.readFailed c.tmp .noent) })
    | some file => some (d, { c with stage := .openArchive file })
  | .openArchive file =>
    match d.opens task.archive with
    | none => some (d, { c with stage := .cleanup (.readFailed task.args.archivePath .noent) })
    | some archive => some (d, { c with stage := .load file archive })
  | .load file archive =>
    match loadArchive K task ((d.content archive).getD []) with
    | .error e => some (d, { c with stage := .cleanup e })
    | .ok structs => some (d, { c with
        stage := .scan
        threads := some (task.spawn file structs ((d.content file).getD [])) })
  | .scan =>
    match c.threads with
    | none => none
    | some r =>
      match queueAppend task.setup r.state.reader.files task.args.fileToAppend with
      | .error e => some (d, c.leave r e)
      | .ok (root, queue) => some (d, { c with
          stage := .read
          threads := some { r with
            job := { r.job with root := root }
            state := { r.state with main := .next queue } } })
  | .read =>
    match c.threads with
    | none => none
    | some r => (readStep c r).map fun c' => (d, c')
  | .rename =>
    match d.rename (task.loc c.tmp) task.archive with
    | none => some (d, { c with stage := .cleanup .writeError })
    | some d' => some (d', { c with stage := .returned (.ok ()) })
  | .cleanup e => some (d.remove (task.loc c.tmp), { c with stage := .returned (.error e) })
  | .returned _ | .panicked _ => none

/-- A piece of the copy. -/
def copyStep (n : Nat) (d : Disk) (c : AppendCall) : Option (Disk × AppendCall) :=
  match c.stage with
  | .copying src dst done =>
    let piece := Bytes.slice done n ((d.content src).getD [])
    some (d.write dst (Bytes.overwrite done piece ((d.content dst).getD [])),
      { c with stage := .copying src dst (done + piece.length) })
  | _ => none

/-- The call that the main thread is at fails. -/
def failStep (task : AppendTask) (e : Errno) (c : AppendCall) : Option AppendCall :=
  match c.stage with
  | .copy | .copying .. => some { c with stage := .returned (.error .writeError) }
  | .openTmp => some { c with stage := .cleanup (.readFailed c.tmp e) }
  | .openArchive _ | .load .. => some { c with stage := .cleanup (.readFailed task.args.archivePath e) }
  | .rename => some { c with stage := .cleanup .writeError }
  | _ => none

/-- The state with `bytes` in the file that the writer has open. -/
def Threads.State.withBytes (s : Threads.State) (bytes : Bytes) : Threads.State :=
  match s.writer with
  | .running q e arch => { s with writer := .running q e { arch with writer := { arch.writer with bytes := bytes } } }
  | .ended .. => s

/-- A step of the threads, on the file that the writer has open. -/
def Running.step (K : Crates) (r : Running) (move : Threads.Move) (d : Disk) : Option (Disk × Running) :=
  match r.state.writer with
  | .ended .. => (Threads.step K r.job r.state move).map fun s => (d, { r with state := s })
  | .running .. =>
    (Threads.step K r.job (r.state.withBytes ((d.content r.file).getD [])) move).map fun s =>
      (d.write r.file s.writer.arch.writer.bytes, { r with state := s })

/-- A step of the pool or of the writer. -/
def threadStep (K : Crates) (move : Threads.Move) (d : Disk) (c : AppendCall) : Option (Disk × AppendCall) :=
  match move, c.threads with
  | .main, _ | _, none => none
  | move, some r => (r.step K move d).map fun x => (x.1, { c with threads := some x.2 })

def AppendTask.step (K : Crates) (task : AppendTask) : AppendMove → Disk → AppendCall → Option (Disk × AppendCall)
  | .main, d, c => appendStep K task d c
  | .copied n, d, c => copyStep n d c
  | .fail e, d, c => (failStep task e c).map fun c' => (d, c')
  | .thread move, d, c => threadStep K move d c

/-- The moves of a schedule, one after another. -/
def AppendTask.run (K : Crates) (task : AppendTask) : List AppendMove → Disk → AppendCall →
    Option (Disk × AppendCall) := Interleave.runs (task.step K)

/-! ## What a step does -/

/-- Where the copy is. -/
def AppendTask.copy (task : AppendTask) : Loc :=
  match createTmpFile task.args.archivePath with
  | .ok tmp => task.loc tmp
  | .error _ => task.archive

/-- The copy stands beside the archive. -/
theorem AppendTask.copy_ne {task : AppendTask} {tmp : Path} (h : createTmpFile task.args.archivePath = .ok tmp) :
    task.loc tmp = task.copy ∧ task.copy ≠ task.archive := by
  have hcopy : task.copy = task.loc tmp := by
    unfold AppendTask.copy
    rw [h]
  refine ⟨hcopy.symm, ?_⟩
  obtain ⟨name, newName, hname, hnew, htmp⟩ := createTmpFile_ok h
  rw [hcopy]
  unfold AppendTask.archive AppendTask.loc
  rw [hname, htmp]
  intro heq
  have hsame := List.append_cancel_left heq
  simp only [Option.getD_some, List.cons.injEq, and_true] at hsame
  exact tmpName_ne name (hsame ▸ hnew)

/-- What the main thread does in the loop and at the joins: it stays, leaves, goes on to the renaming, or panics. -/
theorem readStep_cases {c c' : AppendCall} {r : Running} (hr : c.threads = some r) (h : readStep c r = some c') :
    c'.tmp = c.tmp ∧ (∃ r', c'.threads = some r' ∧ r'.file = r.file) ∧
      (c'.stage = c.stage ∨ (∃ e, c'.stage = .cleanup e) ∨ c'.stage = .rename ∨ ∃ m, c'.stage = .panicked m) := by
  unfold readStep at h
  split at h
  · cases h
    exact ⟨rfl, ⟨_, rfl, rfl⟩, .inr (.inl ⟨_, rfl⟩)⟩
  · split at h
    · cases h
    · split at h
      · cases h
        exact ⟨rfl, ⟨_, rfl, rfl⟩, .inr (.inl ⟨_, rfl⟩)⟩
      · split at h
        · cases h
          exact ⟨rfl, ⟨_, rfl, rfl⟩, .inl rfl⟩
        · cases h
          exact ⟨rfl, ⟨_, rfl, rfl⟩, .inl rfl⟩
  · split at h
    · cases h
    · split at h
      · cases h
        exact ⟨rfl, ⟨_, rfl, rfl⟩, .inr (.inl ⟨_, rfl⟩)⟩
      · cases h
        exact ⟨rfl, ⟨r, hr, rfl⟩, .inr (.inr (.inl rfl))⟩
  · cases h
    exact ⟨rfl, ⟨r, hr, rfl⟩, .inr (.inr (.inr ⟨_, rfl⟩))⟩
  · obtain ⟨s, _, rfl⟩ := Option.map_eq_some_iff.1 h
    exact ⟨rfl, ⟨_, rfl, rfl⟩, .inl rfl⟩

/-- The steps of the main thread, one for each way through a stage. -/
inductive MainStep (K : Crates) (task : AppendTask) : Disk → AppendCall → Disk → AppendCall → Prop
  | unnamed {d : Disk} {tmp : Path} {threads : Option Running} {e : CryoErrors} :
    createTmpFile task.args.archivePath = .error e →
    MainStep K task d ⟨.start, tmp, threads⟩ d ⟨.returned (.error e), tmp, threads⟩
  | named {d : Disk} {tmp t : Path} {threads : Option Running} : createTmpFile task.args.archivePath = .ok t →
    MainStep K task d ⟨.start, tmp, threads⟩ d ⟨.copy, t, threads⟩
  | unread {d : Disk} {tmp : Path} {threads : Option Running} : d.opens task.archive = none →
    MainStep K task d ⟨.copy, tmp, threads⟩ d ⟨.returned (.error .writeError), tmp, threads⟩
  | uncreated {d : Disk} {tmp : Path} {threads : Option Running} : d.create task.fresh (task.loc tmp) = none →
    MainStep K task d ⟨.copy, tmp, threads⟩ d ⟨.returned (.error .writeError), tmp, threads⟩
  | created {d d' : Disk} {tmp : Path} {threads : Option Running} {src o : Nat} : d.opens task.archive = some src →
    d.create task.fresh (task.loc tmp) = some (o, d') →
    MainStep K task d ⟨.copy, tmp, threads⟩ d' ⟨.copying src o 0, tmp, threads⟩
  | copied {d : Disk} {tmp : Path} {threads : Option Running} {src o done : Nat} :
    ((d.content src).getD []).length ≤ done →
    MainStep K task d ⟨.copying src o done, tmp, threads⟩ d ⟨.openTmp, tmp, threads⟩
  | tmpMissing {d : Disk} {tmp : Path} {threads : Option Running} : d.opens (task.loc tmp) = none →
    MainStep K task d ⟨.openTmp, tmp, threads⟩ d ⟨.cleanup (.readFailed tmp .noent), tmp, threads⟩
  | tmpOpened {d : Disk} {tmp : Path} {threads : Option Running} {o : Nat} : d.opens (task.loc tmp) = some o →
    MainStep K task d ⟨.openTmp, tmp, threads⟩ d ⟨.openArchive o, tmp, threads⟩
  | archiveMissing {d : Disk} {tmp : Path} {threads : Option Running} {o : Nat} : d.opens task.archive = none →
    MainStep K task d ⟨.openArchive o, tmp, threads⟩ d
      ⟨.cleanup (.readFailed task.args.archivePath .noent), tmp, threads⟩
  | archiveOpened {d : Disk} {tmp : Path} {threads : Option Running} {o src : Nat} :
    d.opens task.archive = some src →
    MainStep K task d ⟨.openArchive o, tmp, threads⟩ d ⟨.load o src, tmp, threads⟩
  | rejected {d : Disk} {tmp : Path} {threads : Option Running} {o src : Nat} {e : CryoErrors} :
    loadArchive K task ((d.content src).getD []) = .error e →
    MainStep K task d ⟨.load o src, tmp, threads⟩ d ⟨.cleanup e, tmp, threads⟩
  | loaded {d : Disk} {tmp : Path} {threads : Option Running} {o src : Nat} {structs : FileStructs} :
    loadArchive K task ((d.content src).getD []) = .ok structs →
    MainStep K task d ⟨.load o src, tmp, threads⟩ d
      ⟨.scan, tmp, some (task.spawn o structs ((d.content o).getD []))⟩
  | unqueued {d : Disk} {tmp : Path} {r : Running} {e : CryoErrors} :
    queueAppend task.setup r.state.reader.files task.args.fileToAppend = .error e →
    MainStep K task d ⟨.scan, tmp, some r⟩ d (AppendCall.leave ⟨.scan, tmp, some r⟩ r e)
  | queued {d : Disk} {tmp root : Path} {r : Running} {queue : List Path} :
    queueAppend task.setup r.state.reader.files task.args.fileToAppend = .ok (root, queue) →
    MainStep K task d ⟨.scan, tmp, some r⟩ d ⟨.read, tmp, some { r with
      job := { r.job with root := root }
      state := { r.state with main := .next queue } }⟩
  | read {d : Disk} {tmp : Path} {r : Running} {c : AppendCall} : readStep ⟨.read, tmp, some r⟩ r = some c →
    MainStep K task d ⟨.read, tmp, some r⟩ d c
  | unrenamed {d : Disk} {tmp : Path} {threads : Option Running} : d.rename (task.loc tmp) task.archive = none →
    MainStep K task d ⟨.rename, tmp, threads⟩ d ⟨.cleanup .writeError, tmp, threads⟩
  | renamed {d d' : Disk} {tmp : Path} {threads : Option Running} : d.rename (task.loc tmp) task.archive = some d' →
    MainStep K task d ⟨.rename, tmp, threads⟩ d' ⟨.returned (.ok ()), tmp, threads⟩
  | cleaned {d : Disk} {tmp : Path} {threads : Option Running} {e : CryoErrors} :
    MainStep K task d ⟨.cleanup e, tmp, threads⟩ (d.remove (task.loc tmp)) ⟨.returned (.error e), tmp, threads⟩

theorem mainStep_of_appendStep {task : AppendTask} {d d' : Disk} {c c' : AppendCall}
    (h : appendStep K task d c = some (d', c')) : MainStep K task d c d' c' := by
  obtain ⟨stage, tmp, threads⟩ := c
  cases stage with
  | start =>
    unfold appendStep at h
    dsimp only at h
    split at h
    · rename_i he
      cases h
      exact .unnamed he
    · rename_i ht
      cases h
      exact .named ht
  | copy =>
    unfold appendStep at h
    dsimp only at h
    split at h
    · rename_i hsrc
      cases h
      exact .unread hsrc
    · rename_i src hsrc
      split at h
      · rename_i hcreate
        cases h
        exact .uncreated hcreate
      · rename_i hcreate
        cases h
        exact .created hsrc hcreate
  | copying src o done =>
    unfold appendStep at h
    dsimp only at h
    split at h
    · rename_i hdone
      cases h
      exact .copied hdone
    · cases h
  | openTmp =>
    unfold appendStep at h
    dsimp only at h
    split at h
    · rename_i hopen
      cases h
      exact .tmpMissing hopen
    · rename_i hopen
      cases h
      exact .tmpOpened hopen
  | openArchive o =>
    unfold appendStep at h
    dsimp only at h
    split at h
    · rename_i hopen
      cases h
      exact .archiveMissing hopen
    · rename_i hopen
      cases h
      exact .archiveOpened hopen
  | load o src =>
    unfold appendStep at h
    dsimp only at h
    split at h
    · rename_i hload
      cases h
      exact .rejected hload
    · rename_i hload
      cases h
      exact .loaded hload
  | scan =>
    unfold appendStep at h
    cases threads with
    | none => cases h
    | some r =>
      dsimp only at h
      split at h
      · rename_i hqueue
        cases h
        exact .unqueued hqueue
      · rename_i hqueue
        cases h
        exact .queued hqueue
  | read =>
    unfold appendStep at h
    cases threads with
    | none => cases h
    | some r =>
      obtain ⟨c₁, hread, heq⟩ := Option.map_eq_some_iff.1 h
      cases heq
      exact .read hread
  | rename =>
    unfold appendStep at h
    dsimp only at h
    split at h
    · rename_i hrename
      cases h
      exact .unrenamed hrename
    · rename_i hrename
      cases h
      exact .renamed hrename
  | cleanup e =>
    cases h
    exact .cleaned
  | returned result => cases h
  | panicked message => cases h

/-- The threads change the file that the writer has open, and nothing else. -/
theorem Running.step_cases {r r' : Running} {move : Threads.Move} {d d' : Disk}
    (h : r.step K move d = some (d', r')) : r'.file = r.file ∧ d'.entry = d.entry ∧
      ∀ L, Disk.Within L {r.file} d d' := by
  unfold Running.step at h
  split at h
  · obtain ⟨s, _, heq⟩ := Option.map_eq_some_iff.1 h
    cases heq
    exact ⟨rfl, rfl, fun L => .refl L _ d⟩
  · obtain ⟨s, _, heq⟩ := Option.map_eq_some_iff.1 h
    cases heq
    exact ⟨rfl, rfl, fun _ => Disk.within_write (Set.mem_singleton _) d _⟩

theorem threadStep_eq_some {move : Threads.Move} {d d' : Disk} {c c' : AppendCall} :
    threadStep K move d c = some (d', c') ↔ move ≠ .main ∧ ∃ r r', c.threads = some r ∧
      c' = { c with threads := some r' } ∧ r.step K move d = some (d', r') := by
  constructor
  · intro h
    unfold threadStep at h
    split at h
    · cases h
    · cases h
    · rename_i r hmain hr
      obtain ⟨⟨d₁, r'⟩, hstep, heq⟩ := Option.map_eq_some_iff.1 h
      cases heq
      exact ⟨hmain, r, r', hr, rfl, hstep⟩
  · rintro ⟨hmain, r, r', hr, rfl, hstep⟩
    unfold threadStep
    rw [hr]
    cases move with
    | main => exact absurd rfl hmain
    | _ =>
      dsimp only
      rw [hstep]
      rfl

/-! ## The invariant -/

/-- The file of the copy: one that had its name, or a new one. -/
def Origin (task : AppendTask) (d₀ : Disk) (o : Nat) : Prop :=
  d₀.entry task.copy = some (.file o) ∨ d₀.entry task.copy = none ∧ d₀.content task.fresh = none ∧ o = task.fresh

/-- A call with a copy of its own: the file `o`, made of the file `src` of the archive. Nothing else has changed. -/
structure Working (task : AppendTask) (d₀ d : Disk) (c : AppendCall) (src o : Nat) : Prop where
  archive : d₀.opens task.archive = some src
  origin : Origin task d₀ o
  ne : src ≠ o
  path : task.loc c.tmp = task.copy
  apart : task.copy ≠ task.archive
  within : Disk.Within {task.copy} {o} d₀ d
  file : ∀ r, c.threads = some r → r.file = o

/-- The copy stands under its name. -/
structure Standing (task : AppendTask) (d₀ d : Disk) (c : AppendCall) (src o : Nat) : Prop
    extends Working task d₀ d c src o where
  stands : d.entry task.copy = some (.file o)

section

variable {task : AppendTask} {d₀ d d' : Disk} {c c' : AppendCall} {src o : Nat}

theorem Working.not_link (h : Working task d₀ d c src o) (t : Loc) : d₀.entry task.copy ≠ some (.link t) := by
  rcases h.origin with hfile | ⟨hnone, _⟩
  · rw [hfile]
    simp
  · rw [hnone]
    simp

/-- The archive is opened as before. -/
theorem Working.opens (h : Working task d₀ d c src o) : d.opens task.archive = some src := by
  refine Disk.opens_congr (fun l hl => h.within.entry l hl) h.not_link (fun hsrc => ?_) h.archive
  rcases h.origin with hfile | ⟨hnone, _⟩
  · rw [hfile] at hsrc
    cases hsrc
    exact h.ne rfl
  · rw [hnone] at hsrc
    cases hsrc

/-- The archive holds what it held. -/
theorem Working.read (h : Working task d₀ d c src o) : d.read task.archive = d₀.read task.archive := by
  unfold Disk.read
  rw [h.opens, h.archive, Option.bind_some, Option.bind_some, h.within.content src (fun heq => h.ne heq)]

theorem Working.of_call (h : Working task d₀ d c src o) (htmp : c'.tmp = c.tmp)
    (hfile : ∀ r, c'.threads = some r → r.file = o) : Working task d₀ d c' src o :=
  { h with path := by rw [htmp]; exact h.path, file := hfile }

theorem Standing.of_call (h : Standing task d₀ d c src o) (htmp : c'.tmp = c.tmp)
    (hfile : ∀ r, c'.threads = some r → r.file = o) : Standing task d₀ d c' src o :=
  { h.toWorking.of_call htmp hfile with stands := h.stands }

theorem Working.write (h : Working task d₀ d c src o) (b : Bytes) : Working task d₀ (d.write o b) c src o :=
  { h with within := h.within.trans (Disk.within_write (Set.mem_singleton o) d b) }

theorem Standing.write (h : Standing task d₀ d c src o) (b : Bytes) : Standing task d₀ (d.write o b) c src o :=
  { h.toWorking.write b with stands := h.stands }

/-- The copy can be put over the archive. -/
theorem Standing.rename (h : Standing task d₀ d c src o) :
    d.rename (task.loc c.tmp) task.archive = some (d.move task.copy task.archive) := by
  have hopens := h.opens
  rw [h.path]
  refine Disk.rename_file h.stands h.apart (fun hdir => ?_) fun hfile => ?_
  · rw [Disk.opens_of_ne_link (by simp [hdir]), hdir] at hopens
    cases hopens
  · rw [Disk.opens_file hfile] at hopens
    exact h.ne (Option.some.inj hopens).symm

end

/-- The call has ended: without having begun, with the copy in the archive's place, or with the copy removed, except
that `left` may hold of a copy that was left. -/
def Ended (task : AppendTask) (d₀ : Disk) (left : Prop) (d : Disk) (c : AppendCall) : Result Unit → Prop
  | .ok () => ∃ o, Origin task d₀ o ∧ Disk.Within {task.copy, task.archive} {o} d₀ d ∧
      d.entry task.copy = none ∧ d.entry task.archive = some (.file o) ∧ ∀ r, c.threads = some r → r.file = o
  | .error _ => (d = d₀ ∧ c.threads = none) ∨ ∃ src o, Working task d₀ d c src o ∧
      (d.entry task.copy = none ∨ left ∧ d.entry task.copy = some (.file o) ∧ c.threads = none)

/-- Where the copy is, stage by stage, in a call on the disk `d₀`. -/
def AppendCall.Inv (task : AppendTask) (d₀ : Disk) (left : Prop) (d : Disk) (c : AppendCall) : Prop :=
  match c.stage with
  | .start => d = d₀ ∧ c.threads = none
  | .copy => d = d₀ ∧ c.threads = none ∧ task.loc c.tmp = task.copy ∧ task.copy ≠ task.archive
  | .copying src o _ => Standing task d₀ d c src o ∧ c.threads = none
  | .openArchive o => ∃ src, Standing task d₀ d c src o
  | .load o src => Standing task d₀ d c src o
  | .openTmp | .scan | .read | .rename | .cleanup _ | .panicked _ => ∃ src o, Standing task d₀ d c src o
  | .returned result => Ended task d₀ left d c result

section

variable {task : AppendTask} {d₀ d d' : Disk} {left : Prop} {c c' : AppendCall}

theorem inv_start (task : AppendTask) (d₀ : Disk) (left : Prop) : AppendCall.Inv task d₀ left d₀ .start := ⟨rfl, rfl⟩

/-- `fs::copy` opens its files: the copy is an empty file, a new one or what stood under its name. -/
theorem inv_copy (hlink : ∀ t, d₀.entry task.copy ≠ some (.link t))
    (halias : ∀ o, d₀.entry task.copy = some (.file o) → d₀.opens task.archive ≠ some o)
    (hpath : task.loc c.tmp = task.copy) (hne : task.copy ≠ task.archive) (hthreads : c.threads = none) {src o : Nat}
    (hsrc : d₀.opens task.archive = some src) (h : d₀.create task.fresh (task.loc c.tmp) = some (o, d')) :
    Standing task d₀ d' c src o := by
  have hfile : ∀ r, c.threads = some r → r.file = o := fun r hr => by
    rw [hthreads] at hr
    cases hr
  rw [hpath, Disk.create_of_ne_link hlink] at h
  split at h
  · rename_i i hi
    cases h
    have hsrco : src ≠ o := fun heq => halias o hi (heq ▸ hsrc)
    exact ⟨⟨hsrc, .inl hi, hsrco, hpath, hne, Disk.within_write (Set.mem_singleton o) d₀ [], hfile⟩, hi⟩
  · cases h
  · rename_i hnone
    split at h
    · rename_i hfresh
      cases h
      have hsrco : src ≠ task.fresh := fun heq => Disk.content_of_opens hsrc (heq ▸ hfresh)
      have hwithin : Disk.Within {task.copy} {task.fresh} d₀ (d₀.make task.copy task.fresh) :=
        Disk.within_make (Set.mem_singleton _) (Set.mem_singleton _) d₀
      exact ⟨⟨hsrc, .inr ⟨hnone, hfresh, rfl⟩, hsrco, hpath, hne, hwithin, hfile⟩, Disk.make_self ..⟩
    · cases h

/-- The main thread. -/
theorem inv_main (hlink : ∀ t, d₀.entry task.copy ≠ some (.link t))
    (halias : ∀ o, d₀.entry task.copy = some (.file o) → d₀.opens task.archive ≠ some o)
    (h : AppendCall.Inv task d₀ left d c) (hstep : appendStep K task d c = some (d', c')) :
    AppendCall.Inv task d₀ left d' c' := by
  cases mainStep_of_appendStep hstep with
  | unnamed _ => exact .inl h
  | named htmp =>
    obtain ⟨rfl, hthreads⟩ := h
    exact ⟨rfl, hthreads, AppendTask.copy_ne htmp⟩
  | unread _ | uncreated _ => exact .inl ⟨h.1, h.2.1⟩
  | created hsrc hcreate =>
    obtain ⟨rfl, hthreads, hpath, hne⟩ := h
    have hstanding := inv_copy hlink halias hpath hne hthreads hsrc hcreate
    exact ⟨hstanding.of_call rfl hstanding.file, hthreads⟩
  | copied _ =>
    obtain ⟨h, _⟩ := h
    exact ⟨_, _, h.of_call rfl h.file⟩
  | tmpMissing hopen =>
    obtain ⟨src, o, h⟩ := h
    exact ⟨src, o, h.of_call rfl h.file⟩
  | tmpOpened hopen =>
    obtain ⟨src, o, h⟩ := h
    rw [h.path, Disk.opens_file h.stands] at hopen
    cases hopen
    exact ⟨src, h.of_call rfl h.file⟩
  | archiveMissing hopen =>
    obtain ⟨src, h⟩ := h
    exact ⟨src, _, h.of_call rfl h.file⟩
  | archiveOpened hopen =>
    obtain ⟨src, h⟩ := h
    rw [h.opens] at hopen
    cases hopen
    exact h.of_call rfl h.file
  | rejected _ => exact ⟨_, _, Standing.of_call h rfl h.file⟩
  | loaded _ =>
    refine ⟨_, _, Standing.of_call h rfl fun r hr => ?_⟩
    cases hr
    rfl
  | unqueued _ | queued _ =>
    obtain ⟨src, o, h⟩ := h
    have hfile := h.file _ rfl
    refine ⟨src, o, h.of_call rfl fun r' hr' => ?_⟩
    cases hr'
    exact hfile
  | read hread =>
    obtain ⟨src, o, h⟩ := h
    obtain ⟨htmp, ⟨r', hr', hfile⟩, hstage⟩ := readStep_cases rfl hread
    have hstanding : Standing task d₀ d c' src o := h.of_call htmp fun r'' hr'' => by
      rw [hr'] at hr''
      cases hr''
      rw [hfile]
      exact h.file _ rfl
    unfold AppendCall.Inv
    rcases hstage with hstage | ⟨e, hstage⟩ | hstage | ⟨message, hstage⟩ <;> rw [hstage] <;>
      exact ⟨src, o, hstanding⟩
  | unrenamed _ =>
    obtain ⟨src, o, h⟩ := h
    exact ⟨src, o, h.of_call rfl h.file⟩
  | renamed hrename =>
    obtain ⟨src, o, h⟩ := h
    rw [h.rename] at hrename
    cases hrename
    refine ⟨o, h.origin, ?_, Disk.move_self .., ?_, h.file⟩
    · exact (h.within.mono (by simp) (fun _ hi => hi)).trans (Disk.within_move (by simp) (by simp) d)
    · rw [Disk.move_target h.apart.symm]
      exact h.stands
  | cleaned =>
    obtain ⟨src, o, h⟩ := h
    rw [h.path, Disk.remove_file h.stands]
    refine .inr ⟨src, o, ?_, .inl (Disk.unlink_self ..)⟩
    exact { h.toWorking.of_call rfl h.file with within := h.within.trans (Disk.within_unlink (Set.mem_singleton _) d) }

/-- A piece of the copy. -/
theorem inv_copied {n : Nat} (h : AppendCall.Inv task d₀ left d c) (hstep : copyStep n d c = some (d', c')) :
    AppendCall.Inv task d₀ left d' c' := by
  obtain ⟨stage, tmp, threads⟩ := c
  unfold copyStep at hstep
  split at hstep
  · rename_i src o done hstage
    obtain rfl : stage = .copying src o done := hstage
    obtain ⟨h, hthreads⟩ := h
    cases hstep
    exact ⟨(h.write _).of_call rfl h.file, hthreads⟩
  · cases hstep

/-- A call to the operating system fails: in the middle of the copy, this leaves it. -/
theorem inv_fail {e : Errno} (hleft : (∃ src o done, c.stage = .copying src o done) → left)
    (h : AppendCall.Inv task d₀ left d c) (hstep : failStep task e c = some c') : AppendCall.Inv task d₀ left d c' := by
  obtain ⟨stage, tmp, threads⟩ := c
  unfold failStep at hstep
  cases stage with
  | copy =>
    obtain ⟨rfl, hthreads, _⟩ := h
    cases hstep
    exact .inl ⟨rfl, hthreads⟩
  | copying src o done =>
    obtain ⟨h, hthreads⟩ := h
    cases hstep
    exact .inr ⟨src, o, h.toWorking.of_call rfl h.file, .inr ⟨hleft ⟨src, o, done, rfl⟩, h.stands, hthreads⟩⟩
  | openTmp =>
    obtain ⟨src, o, h⟩ := h
    cases hstep
    exact ⟨src, o, h.of_call rfl h.file⟩
  | openArchive o =>
    obtain ⟨src, h⟩ := h
    cases hstep
    exact ⟨src, o, h.of_call rfl h.file⟩
  | load o src =>
    cases hstep
    exact ⟨src, o, Standing.of_call h rfl h.file⟩
  | rename =>
    obtain ⟨src, o, h⟩ := h
    cases hstep
    exact ⟨src, o, h.of_call rfl h.file⟩
  | _ => cases hstep

/-- The pool and the writer write to the copy. -/
theorem inv_thread {move : Threads.Move} (h : AppendCall.Inv task d₀ left d c)
    (hstep : threadStep K move d c = some (d', c')) : AppendCall.Inv task d₀ left d' c' := by
  obtain ⟨_, r, r', hr, rfl, hthread⟩ := threadStep_eq_some.1 hstep
  obtain ⟨hsame, hentry, hwithin⟩ := Running.step_cases hthread
  have hnone : c.threads ≠ none := by simp [hr]
  have hfile : ∀ {o : Nat}, (∀ r₁, c.threads = some r₁ → r₁.file = o) → ∀ r₁, some r' = some r₁ → r₁.file = o :=
    fun hall r₁ hr₁ => by
      cases hr₁
      exact hsame.trans (hall r hr)
  have hworking : ∀ {src o : Nat}, Working task d₀ d c src o →
      Working task d₀ d' { c with threads := some r' } src o := fun h =>
    ⟨h.archive, h.origin, h.ne, h.path, h.apart, h.within.trans (h.file r hr ▸ hwithin _), hfile h.file⟩
  have hstanding : ∀ {src o : Nat}, Standing task d₀ d c src o →
      Standing task d₀ d' { c with threads := some r' } src o := fun h =>
    { hworking h.toWorking with stands := by rw [hentry]; exact h.stands }
  obtain ⟨stage, tmp, threads⟩ := c
  cases stage with
  | start => exact absurd h.2 hnone
  | copy => exact absurd h.2.1 hnone
  | copying => exact absurd h.2 hnone
  | openArchive o =>
    obtain ⟨src, h⟩ := h
    exact ⟨src, hstanding h⟩
  | load o src => exact hstanding h
  | returned result =>
    cases result with
    | ok _ =>
      obtain ⟨o, horigin, hall, hcopy, harchive, hthreads⟩ := h
      refine ⟨o, horigin, hall.trans (hthreads r hr ▸ hwithin _), ?_, ?_, hfile hthreads⟩
      · rw [hentry]
        exact hcopy
      · rw [hentry]
        exact harchive
    | error e =>
      rcases h with ⟨_, hthreads⟩ | ⟨src, o, h, hcopy | ⟨_, _, hthreads⟩⟩
      · exact absurd hthreads hnone
      · exact .inr ⟨src, o, hworking h, .inl (by rw [hentry]; exact hcopy)⟩
      · exact absurd hthreads hnone
  | _ =>
    obtain ⟨src, o, h⟩ := h
    exact ⟨src, o, hstanding h⟩

/-- **Every step keeps the invariant**, where a failure in the middle of the copy is allowed for. -/
theorem inv_step (hlink : ∀ t, d₀.entry task.copy ≠ some (.link t))
    (halias : ∀ o, d₀.entry task.copy = some (.file o) → d₀.opens task.archive ≠ some o) {move : AppendMove}
    (hleft : (∃ e, move = .fail e) → (∃ src o done, c.stage = .copying src o done) → left)
    (h : AppendCall.Inv task d₀ left d c) (hstep : task.step K move d c = some (d', c')) :
    AppendCall.Inv task d₀ left d' c' := by
  cases move with
  | main => exact inv_main hlink halias h hstep
  | copied n => exact inv_copied h hstep
  | fail e =>
    obtain ⟨c₁, hfail, heq⟩ := Option.map_eq_some_iff.1 hstep
    cases heq
    exact inv_fail (hleft ⟨e, rfl⟩) h hfail
  | thread move => exact inv_thread h hstep

variable (K) in
/-- In a run from `d` and `c`, a call to the operating system failed in the middle of the copy. -/
def CopyFails (task : AppendTask) (moves : List AppendMove) (d : Disk) (c : AppendCall) : Prop :=
  ∃ pre e post d' c' src o done, moves = pre ++ .fail e :: post ∧ task.run K pre d c = some (d', c') ∧
    c'.stage = .copying src o done

theorem CopyFails.of_cons {move : AppendMove} {moves : List AppendMove} {d₁ : Disk} {c₁ : AppendCall}
    (hstep : task.step K move d c = some (d₁, c₁)) (h : CopyFails K task moves d₁ c₁) :
    CopyFails K task (move :: moves) d c := by
  obtain ⟨pre, e, post, d', c', src, o, done, rfl, hpre, hstage⟩ := h
  exact ⟨move :: pre, e, post, d', c', src, o, done, rfl, Interleave.runs_cons.2 ⟨d₁, c₁, hstep, hpre⟩, hstage⟩

/-- **Every run keeps the invariant.** -/
theorem inv_run (hlink : ∀ t, d₀.entry task.copy ≠ some (.link t))
    (halias : ∀ o, d₀.entry task.copy = some (.file o) → d₀.opens task.archive ≠ some o) {moves : List AppendMove}
    (hleft : CopyFails K task moves d c → left) (h : AppendCall.Inv task d₀ left d c)
    (hrun : task.run K moves d c = some (d', c')) : AppendCall.Inv task d₀ left d' c' := by
  induction moves generalizing d c with
  | nil =>
    cases hrun
    exact h
  | cons move moves ih =>
    obtain ⟨d₁, c₁, hstep, hrun⟩ := Interleave.runs_cons.1 hrun
    have hhead : (∃ e, move = .fail e) → (∃ src o done, c.stage = .copying src o done) → left := by
      rintro ⟨e, rfl⟩ ⟨src, o, done, hstage⟩
      exact hleft ⟨[], e, moves, d, c, src, o, done, rfl, rfl, hstage⟩
    exact ih (fun hfails => hleft (hfails.of_cons hstep)) (inv_step hlink halias hhead h hstep) hrun

/-- A call that has returned without threads is over. -/
theorem run_over {result : Result Unit} (hstage : c.stage = .returned result) (hthreads : c.threads = none)
    {moves : List AppendMove} (hrun : task.run K moves d c = some (d', c')) : d' = d ∧ c' = c := by
  cases moves with
  | nil =>
    cases hrun
    exact ⟨rfl, rfl⟩
  | cons move moves =>
    obtain ⟨d₁, c₁, hstep, _⟩ := Interleave.runs_cons.1 hrun
    obtain ⟨stage, tmp, threads⟩ := c
    obtain rfl : stage = .returned result := hstage
    obtain rfl : threads = none := hthreads
    cases move with
    | main => cases hstep
    | copied n => cases hstep
    | fail e => cases hstep
    | thread move => cases move <;> cases hstep

/-- A copy that failed half-way is left. -/
theorem CopyFails.stays (hlink : ∀ t, d₀.entry task.copy ≠ some (.link t))
    (halias : ∀ o, d₀.entry task.copy = some (.file o) → d₀.opens task.archive ≠ some o) {moves : List AppendMove}
    (h : CopyFails K task moves d₀ .start) (hrun : task.run K moves d₀ .start = some (d, c)) :
    d.entry task.copy ≠ none := by
  obtain ⟨pre, e, post, d₁, c₁, src, o, done, rfl, hpre, hstage⟩ := h
  have hinv : AppendCall.Inv task d₀ True d₁ c₁ :=
    inv_run hlink halias (fun _ => trivial) (inv_start task d₀ True) hpre
  obtain ⟨d₂, c₂, hpre', hrest⟩ := Interleave.runs_append.1 hrun
  cases hpre.symm.trans hpre'
  obtain ⟨d₃, c₃, hfail, hpost⟩ := Interleave.runs_cons.1 hrest
  unfold AppendCall.Inv at hinv
  rw [hstage] at hinv
  obtain ⟨hstanding, hthreads⟩ := hinv
  obtain ⟨c₄, hfail, heq⟩ := Option.map_eq_some_iff.1 hfail
  unfold failStep at hfail
  rw [hstage] at hfail
  cases hfail
  cases heq
  have hend : { c₁ with stage := Stage.returned (.error .writeError) }.threads = none := hthreads
  obtain ⟨rfl, _⟩ := run_over rfl hend hpost
  rw [hstanding.stands]
  simp

end

/-! ## All or nothing -/

/-- Nothing is left of a call: the archive reads as before, and no name has come up. -/
structure Undone (task : AppendTask) (d₀ d : Disk) : Prop where
  archive : d.read task.archive = d₀.read task.archive
  gone : ∀ l, d₀.entry l = none → d.entry l = none

/-- **When an append is atomic.** A call that returns `Err`, in every schedule of its threads and whatever fails, leaves
the archive as it was and no file of its own, except when `fs::copy` failed after it had made the copy. The name of the
copy is no link, and no other name of the archive's file. -/
theorem append_atomic_iff {task : AppendTask} {d₀ d : Disk} {c : AppendCall} {moves : List AppendMove} {e : CryoErrors}
    (hlink : ∀ t, d₀.entry task.copy ≠ some (.link t))
    (halias : ∀ o, d₀.entry task.copy = some (.file o) → d₀.opens task.archive ≠ some o)
    (hrun : task.run K moves d₀ .start = some (d, c)) (hreturned : c.stage = .returned (.error e)) :
    Undone task d₀ d ↔ ¬ (d₀.entry task.copy = none ∧ CopyFails K task moves d₀ .start) := by
  constructor
  · rintro hundone ⟨hnone, hfails⟩
    exact hfails.stays hlink halias hrun (hundone.gone _ hnone)
  · intro hspared
    have hinv : AppendCall.Inv task d₀ (CopyFails K task moves d₀ .start) d c :=
      inv_run hlink halias id (inv_start task d₀ _) hrun
    unfold AppendCall.Inv at hinv
    rw [hreturned] at hinv
    rcases hinv with ⟨rfl, _⟩ | ⟨src, o, hworking, hcopy⟩
    · exact ⟨rfl, fun _ hl => hl⟩
    · refine ⟨hworking.read, fun l hl => ?_⟩
      by_cases heq : l = task.copy
      · subst heq
        rcases hcopy with hcopy | ⟨hfails, _⟩
        · exact hcopy
        · exact absurd ⟨hl, hfails⟩ hspared
      · exact (hworking.within.entry l heq).trans hl

/-- The result of a call that has returned. -/
def AppendCall.result (c : AppendCall) : Option (Result Unit) :=
  match c.stage with
  | .returned result => some result
  | _ => none

theorem AppendCall.stage_of_result {c : AppendCall} {result : Result Unit} (h : c.result = some result) :
    c.stage = .returned result := by
  unfold AppendCall.result at h
  split at h
  · rename_i hstage
    rw [hstage, Option.some.inj h]
  · cases h

/-- The append of the directory `src` to `a.cryo`, where the scan of it finds `files`. -/
def AppendTask.small (files : List Path) (os : Os) : AppendTask where
  dir := []
  fresh := 7
  setup := AppendSetup.plain files
  env := Env.plain os
  args := AppendArgs.plain

/-- The archive of three bytes in blocks of two. -/
def storedA : Bytes := [0, 0, 0, 0] ++ [1, 2, 3] ++ Footer.serialize ⟨7, 0, 0, false, Vector.replicate 12 0⟩

/-- A file that cannot be read makes the call fail with its threads running, and nothing is left. -/
theorem append_atomic_missing :
    let K := Crates.tabled [Header.stored 2] [indexOfA]
    let b : Path := [.normal "src", .normal "b"]
    let task := AppendTask.small [b] (Os.ofFiles [])
    let d₀ := Disk.ofFiles [(["a.cryo"], storedA)]
    ∃ (moves : List AppendMove) (d : Disk) (c : AppendCall), task.run K moves d₀ .start = some (d, c) ∧
      c.stage = .returned (.error (.readFailed b .noent)) ∧ c.threads.isSome ∧ Undone task d₀ d := by
  intro K b task d₀
  let moves : List AppendMove := [.main, .main, .copied 1000, .main, .main, .main, .main, .main, .main, .main, .main]
  have hshown : (task.run K moves d₀ .start).map (fun r => (r.2.result, r.2.threads.isSome)) =
      some (some (.error (.readFailed b .noent)), true) := by decide +kernel
  obtain ⟨⟨d, c⟩, hrun, hshown⟩ := Option.map_eq_some_iff.1 hshown
  obtain ⟨hresult, hthreads⟩ := Prod.mk.inj hshown
  have hreturned := AppendCall.stage_of_result hresult
  have hnone : d₀.entry task.copy = none := by decide +kernel
  refine ⟨moves, d, c, hrun, hreturned, hthreads,
    (append_atomic_iff (by simp [hnone]) (by simp [hnone]) hrun hreturned).2 ?_⟩
  rintro ⟨_, pre, e, post, _, _, _, _, _, hmoves, _⟩
  have hmem : AppendMove.fail e ∈ moves := by simp [hmoves]
  simp [moves] at hmem

/-- **The copy that `fs::copy` had begun is left** when it fails: the file system is full after two bytes. -/
theorem copy_left :
    let K := Crates.tabled [Header.stored 2] [indexOfA]
    let task := AppendTask.small [] (Os.ofFiles [])
    let d₀ := Disk.ofFiles [(["a.cryo"], storedA)]
    ∃ (moves : List AppendMove) (d : Disk) (c : AppendCall), task.run K moves d₀ .start = some (d, c) ∧
      c.stage = .returned (.error .writeError) ∧ d₀.entry ["a.tmp"] = none ∧ d.read ["a.tmp"] = some [0, 0] ∧
      ¬ Undone task d₀ d := by
  intro K task d₀
  let moves : List AppendMove := [.main, .main, .copied 2, .fail .io]
  have hshown : (task.run K moves d₀ .start).map (fun r => (r.2.result, r.1.read ["a.tmp"])) =
      some (some (.error .writeError), some [0, 0]) := by decide +kernel
  obtain ⟨⟨d, c⟩, hrun, hshown⟩ := Option.map_eq_some_iff.1 hshown
  obtain ⟨hresult, hread⟩ := Prod.mk.inj hshown
  have hnone : d₀.entry ["a.tmp"] = none := by decide +kernel
  refine ⟨moves, d, c, hrun, AppendCall.stage_of_result hresult, hnone, hread, fun hundone => ?_⟩
  have hgone := hundone.gone _ hnone
  unfold Disk.read at hread
  rw [Disk.opens_of_ne_link (by simp [hgone]), hgone] at hread
  cases hread

end Cryo
