import Cryo.AppendRun
import Cryo.Liveness
import Cryo.OwnCopy

/-!
# An append comes to an end

The stages of a call follow each other, and its threads use up their work as those of a compression do, so no schedule
goes on for ever. And the main thread never waits for a thread that cannot step: from wherever a call is, it can be
brought to its end.

* `call_work`: every step uses up work, but for a piece of the copy that is empty.
* `AppendCall.Faithful.exists_step`: some step that is no failure uses up work.
* `append_terminates`
-/

namespace Cryo

open Posix Threads

variable {K : Crates}

/-! ## What is left to do -/

/-- The steps of the paths that the scan will queue. -/
def AppendTask.scanWork (task : AppendTask) (job : Job) (files : List FileEntry) : Nat :=
  match queueAppend task.setup files task.args.fileToAppend with
  | .ok (_, queue) => job.queueWork queue
  | .error _ => 0

variable (K) in
/-- The steps from the loading of the archive on. -/
def AppendTask.loadWork (task : AppendTask) (bytes : Bytes) : Nat :=
  match loadArchive K task bytes with
  | .ok structs => task.scanWork (task.spawn 0 structs bytes).job structs.index.files + 12
  | .error _ => 1

/-- The steps left to the threads. -/
def AppendCall.threadWork (c : AppendCall) : Nat :=
  match c.threads with
  | some r => r.state.work r.job
  | none => 0

variable (K) in
/-- The steps left to a call on the archive `bytes`. -/
def AppendCall.work (task : AppendTask) (bytes : Bytes) (c : AppendCall) : Nat :=
  c.threadWork + match c.stage with
  | .start => task.loadWork K bytes + bytes.length + 6
  | .copy => task.loadWork K bytes + bytes.length + 5
  | .copying _ _ done => task.loadWork K bytes + (bytes.length - done) + 4
  | .openTmp => task.loadWork K bytes + 3
  | .openArchive _ => task.loadWork K bytes + 2
  | .load .. => task.loadWork K bytes + 1
  | .scan =>
    match c.threads with
    | some r => task.scanWork r.job r.state.reader.files + 4
    | none => 4
  | .read => 3
  | .rename => 2
  | .cleanup _ => 1
  | .returned _ | .panicked _ => 0

section

variable {task : AppendTask} {d₀ d d' : Disk} {c c' : AppendCall} {bytes : Bytes} {r : Running}

theorem AppendTask.loadWork_pos (task : AppendTask) (bytes : Bytes) : 0 < task.loadWork K bytes := by
  unfold loadWork
  split <;> omega

/-- The main thread has nothing left to do when it leaves. -/
theorem leave_work (c : AppendCall) (r : Running) (e : CryoErrors) :
    (c.leave r e).threadWork ≤ r.state.work r.job := by
  simp only [AppendCall.leave, AppendCall.threadWork, State.work, Main.work, List.length_nil]
  omega

/-- **In the loop and at the joins** every step uses up work. -/
theorem readStep_work (hstage : c.stage = .read) (hr : c.threads = some r) (h : readStep c r = some c') :
    c'.work K task bytes < c.work K task bytes := by
  obtain ⟨stage, tmp, threads⟩ := c
  obtain rfl : stage = .read := hstage
  obtain rfl : threads = some r := hr
  cases readStep_of h with
  | left e =>
    have hleave := leave_work ⟨.read, tmp, some r⟩ r e
    simp only [AppendCall.work, AppendCall.threadWork, AppendCall.leave] at hleave ⊢
    omega
  | sent _ hmain _ _ _ =>
    simp only [AppendCall.work, AppendCall.threadWork, State.work, hmain, Main.work, List.length_append,
      List.length_singleton]
    omega
  | lost _ hmain _ _ _ =>
    simp only [AppendCall.work, AppendCall.threadWork, AppendCall.withMain, State.work, hmain, Main.work]
    omega
  | finished | panicked =>
    simp only [AppendCall.work, AppendCall.threadWork]
    omega
  | went _ _ hs =>
    have hlt := mainStep_work hs
    simp only [AppendCall.work, AppendCall.threadWork]
    omega

/-- A step of the main thread. -/
theorem appendStep_work (hbytes : ∀ b, d₀.read task.archive = some b → b = bytes)
    (hinv : AppendCall.Inv task d₀ True d c) (h : AppendCall.Faithful K task d₀ d c)
    (hstep : appendStep K task d c = some (d', c')) : c'.work K task bytes < c.work K task bytes := by
  cases mainStep_of_appendStep hstep with
  | read hread => exact readStep_work rfl rfl hread
  | unqueued hqueue =>
    rename_i tmp r e
    have hleave := leave_work ⟨.scan, tmp, some r⟩ r e
    simp only [AppendCall.work, AppendCall.threadWork, AppendCall.leave] at hleave ⊢
    omega
  | queued hqueue =>
    rename_i tmp root r queue
    obtain ⟨bytes', structs, r', hr, _, hmain, _, _⟩ := h
    obtain rfl : r = r' := Option.some.inj hr
    have hsame : Job.queueWork { r.job with root := root } queue = r.job.queueWork queue := rfl
    simp only [AppendCall.work, AppendCall.threadWork, State.work, hmain, Main.work, AppendTask.scanWork, hqueue, hsame,
      Job.queueWork_nil]
    omega
  | loaded hload =>
    have hstanding : Standing _ _ _ _ _ _ := hinv
    obtain ⟨hthreads, bytes', hread, hcontent⟩ := h
    obtain rfl : bytes' = bytes := hbytes _ hread
    rw [hstanding.archive_content hread, Option.getD_some] at hload
    rw [hcontent, Option.getD_some]
    simp only [AppendCall.work, AppendTask.loadWork, hload, AppendCall.threadWork, AppendTask.spawn, Threads.spawn,
      State.work, Main.work, ReadState.resume, Pool.work, Writer.work, Job.queueWork_nil, List.length_nil,
      Option.isNone_none, if_true]
    omega
  | rejected hload =>
    have hstanding : Standing _ _ _ _ _ _ := hinv
    obtain ⟨hthreads, bytes', hread, hcontent⟩ := h
    obtain rfl : bytes' = bytes := hbytes _ hread
    rw [hstanding.archive_content hread, Option.getD_some] at hload
    simp only [AppendCall.work, AppendCall.threadWork, AppendTask.loadWork, hload]
    omega
  | _ =>
    simp only [AppendCall.work, AppendCall.threadWork]
    omega

theorem State.withBytes_work (s : State) (b : Bytes) (job : Job) : (s.withBytes b).work job = s.work job := by
  obtain ⟨path, main, reader, outbox, pool, messages, writer⟩ := s
  cases writer <;> rfl

/-- The threads use up work on the file that the writer has open. -/
theorem Running.step_work {r' : Running} {move : Threads.Move} (h : r.step K move d = some (d', r')) :
    r'.job = r.job ∧ r'.state.work r'.job < r.state.work r.job := by
  unfold Running.step at h
  split at h
  · obtain ⟨s, hs, heq⟩ := Option.map_eq_some_iff.1 h
    cases heq
    exact ⟨rfl, Threads.step_work hs⟩
  · obtain ⟨s, hs, heq⟩ := Option.map_eq_some_iff.1 h
    cases heq
    have hlt := Threads.step_work hs
    rw [State.withBytes_work] at hlt
    exact ⟨rfl, hlt⟩

/-- A step of the pool or of the writer. -/
theorem threadStep_work {move : Threads.Move} (hstep : threadStep K move d c = some (d', c')) :
    c'.work K task bytes < c.work K task bytes := by
  obtain ⟨hmove, r, r', hr, rfl, hthread⟩ := threadStep_eq_some.1 hstep
  obtain ⟨stage, tmp, threads⟩ := c
  obtain rfl : threads = some r := hr
  obtain ⟨hjob, hlt⟩ := Running.step_work hthread
  obtain ⟨_, hreader⟩ := Running.step_other hmove hthread
  cases stage <;> simp only [AppendCall.work, AppendCall.threadWork, hjob, hreader] at hlt ⊢ <;> omega

/-- A piece of the copy. -/
theorem copyStep_work {n : Nat} (hstep : copyStep n d c = some (d', c')) :
    c'.work K task bytes ≤ c.work K task bytes := by
  obtain ⟨stage, tmp, threads⟩ := c
  unfold copyStep at hstep
  split at hstep
  · rename_i src o done hstage
    obtain rfl : stage = .copying src o done := hstage
    cases hstep
    simp only [AppendCall.work, AppendCall.threadWork]
    omega
  · cases hstep

/-- A call to the operating system that fails. -/
theorem failStep_work {e : Errno} (hstep : failStep task e c = some c') :
    c'.work K task bytes < c.work K task bytes := by
  have hpos : 0 < task.loadWork K bytes := task.loadWork_pos bytes
  obtain ⟨stage, tmp, threads⟩ := c
  cases stage <;> cases hstep <;> simp only [AppendCall.work, AppendCall.threadWork] <;> omega

/-- A move that is a piece of the copy. -/
def AppendMove.copies : AppendMove → Bool
  | .copied _ => true
  | _ => false

/-- A failure that the code does not ask for. -/
def AppendMove.fails : AppendMove → Bool
  | .fail _ => true
  | .thread move => move.fails
  | _ => false

/-- **Every step uses up work**, but for a piece of the copy. -/
theorem call_work (hbytes : ∀ b, d₀.read task.archive = some b → b = bytes)
    (hinv : AppendCall.Inv task d₀ True d c) (h : AppendCall.Faithful K task d₀ d c) {move : AppendMove}
    (hstep : task.step K move d c = some (d', c')) :
    c'.work K task bytes + (if move.copies then 0 else 1) ≤ c.work K task bytes := by
  cases move with
  | main => exact appendStep_work hbytes hinv h hstep
  | copied n => exact copyStep_work hstep
  | fail e =>
    obtain ⟨c₁, hfail, heq⟩ := Option.map_eq_some_iff.1 hstep
    cases heq
    exact failStep_work hfail
  | thread move => exact threadStep_work hstep

/-! ## Some step can be taken -/

/-- The call has returned, or panicked. -/
def AppendCall.ended (c : AppendCall) : Bool :=
  match c.stage with
  | .returned _ | .panicked _ => true
  | _ => false

/-- What the threads of a compression can do, those of a call can. -/
theorem Running.step_of_threads {move : Threads.Move} {s : State}
    (hcontent : d.content r.file = some r.state.writer.arch.writer.bytes)
    (h : Threads.step K r.job r.state move = some s) : ∃ d', r.step K move d = some (d', { r with state := s }) := by
  unfold Running.step
  split
  · exact ⟨d, by rw [h]; rfl⟩
  · rw [hcontent, Option.getD_some, Threads.State.withBytes_self, h]
    exact ⟨_, rfl⟩

/-- A thread that can step makes the call step. -/
theorem exists_threadStep (hr : c.threads = some r) (hcontent : d.content r.file = some r.state.writer.arch.writer.bytes)
    {move : Threads.Move} (hmove : move ≠ .main) {s : State} (h : Threads.step K r.job r.state move = some s) :
    ∃ d' c', threadStep K move d c = some (d', c') := by
  obtain ⟨d', hstep⟩ := Running.step_of_threads hcontent h
  exact ⟨d', _, threadStep_eq_some.2 ⟨hmove, r, _, hr, rfl, hstep⟩⟩

/-- The main thread reads or has something to send. -/
theorem exists_mainStep (job : Job) {s : State} (h : s.outbox ≠ [] ∨ s.main.closed = false) :
    ∃ s', mainStep job s = some s' := by
  cases houtbox : s.outbox with
  | cons b outbox => exact ⟨_, by simp only [mainStep, houtbox]; rfl⟩
  | nil =>
    have hopen := h.resolve_left (· houtbox)
    cases hm : s.main with
    | next ps =>
      cases ps with
      | nil => exact ⟨_, by simp only [mainStep, houtbox, hm]; rfl⟩
      | cons p ps =>
        simp only [mainStep, houtbox, hm]
        split <;> exact ⟨_, rfl⟩
    | reading p pieces err ps =>
      cases pieces with
      | cons d pieces => exact ⟨_, by simp only [mainStep, houtbox, hm]; rfl⟩
      | nil => cases err <;> exact ⟨_, by simp only [mainStep, houtbox, hm]; rfl⟩
    | done readResult => exact ⟨_, by simp only [mainStep, houtbox, hm]; rfl⟩
    | _ => rw [hm] at hopen; cases hopen

/-- In the loop the main thread steps as that of a compression. -/
theorem readStep_of_main {s : State} (hreading : r.state.outbox ≠ [] ∨ r.state.main.closed = false)
    (herror : ∀ e, r.state.outbox = [] → r.state.main ≠ .done (.error e)) (hs : mainStep r.job r.state = some s) :
    readStep c r = some { c with threads := some { r with state := s } } := by
  unfold readStep
  split
  · rename_i houtbox hm
    exact absurd hm (herror _ houtbox)
  · rename_i houtbox hm
    rw [hm] at hreading
    exact (hreading.elim (· houtbox) (by simp [Main.closed])).elim
  · rename_i houtbox hm
    rw [hm] at hreading
    exact (hreading.elim (· houtbox) (by simp [Main.closed])).elim
  · rename_i houtbox hm
    rw [hm] at hreading
    exact (hreading.elim (· houtbox) (by simp [Main.closed])).elim
  · rw [hs]
    rfl

/-- **In the loop and at the joins** some thread can step. -/
theorem Resumed.exists_step {structs : FileStructs} {root : Path} {queue : List Path} (hstage : c.stage = .read)
    (hr : c.threads = some r) (h : Resumed K task d₀ d bytes structs root queue r) :
    ∃ move d' c', move.copies = false ∧ move.fails = false ∧ task.step K move d c = some (d', c') := by
  have hmain : ∀ {c₁ : AppendCall}, readStep c r = some c₁ →
      ∃ move d' c', move.copies = false ∧ move.fails = false ∧ task.step K move d c = some (d', c') := by
    intro c₁ hread
    refine ⟨.main, d, c₁, rfl, rfl, ?_⟩
    show appendStep K task d c = _
    unfold appendStep
    rw [hstage]
    simp only [hr, hread, Option.map_some]
  have hthread : ∀ {move : Threads.Move} {s : State}, move ≠ .main → move.fails = false →
      Threads.step K r.job r.state move = some s →
      ∃ move d' c', move.copies = false ∧ move.fails = false ∧ task.step K move d c = some (d', c') := by
    intro move s hmove hcalm hs
    obtain ⟨d', c', hstep⟩ := exists_threadStep hr h.content hmove hs
    exact ⟨.thread move, d', c', rfl, hcalm, hstep⟩
  have hgo : (r.state.outbox ≠ [] ∨ r.state.main.closed = false) →
      (∀ e, r.state.outbox = [] → r.state.main ≠ .done (.error e)) →
      ∃ move d' c', move.copies = false ∧ move.fails = false ∧ task.step K move d c = some (d', c') := by
    intro hreading herror
    obtain ⟨s, hs⟩ := exists_mainStep r.job hreading
    exact hmain (readStep_of_main hreading herror hs)
  cases houtbox : r.state.outbox with
  | cons b outbox => exact hgo (.inl (by simp [houtbox])) (fun e hnil => by simp [houtbox] at hnil)
  | nil =>
    rcases h.flow with ⟨message, hm⟩ | ⟨handed, received, fin, hflow, hfrom⟩
    · exact hmain (by simp only [readStep, houtbox, hm]; rfl)
    · cases hm : r.state.main with
      | next ps => exact hgo (.inr (by rw [hm]; rfl)) (fun e _ => by simp [hm])
      | reading p pieces err ps => exact hgo (.inr (by rw [hm]; rfl)) (fun e _ => by simp [hm])
      | done readResult =>
        cases readResult with
        | ok _ => exact hgo (.inr (by rw [hm]; rfl)) (fun e _ => by simp [hm])
        | error e => exact hmain (by simp only [readStep, houtbox, hm]; rfl)
      | joining readResult =>
        cases hresult : r.state.pool.result with
        | none =>
          obtain ⟨move, s, hmove, hcalm, hs⟩ := exists_poolStep K r.job hresult (by rw [hm]; rfl)
          exact hthread hmove hcalm hs
        | some result =>
          have hsome : (readStep c r).isSome = true := by
            simp only [readStep, houtbox, hm, hresult]
            repeat' split
            all_goals rfl
          obtain ⟨c₁, hc₁⟩ := Option.isSome_iff_exists.1 hsome
          exact hmain hc₁
      | waiting =>
        cases hwriter : r.state.writer with
        | ended result arch =>
          have hsome : (readStep c r).isSome = true := by
            simp only [readStep, houtbox, hm, hwriter]
            split <;> rfl
          obtain ⟨c₁, hc₁⟩ := Option.isSome_iff_exists.1 hsome
          exact hmain hc₁
        | running q e arch =>
          -- `Finalize` is still in the channel
          unfold ReadingFrom at hfrom
          rw [hm] at hfrom
          obtain ⟨rfl, _⟩ := hfrom
          obtain ⟨_, hpost⟩ := hflow.post
          rw [hwriter] at hpost
          obtain ⟨bs, hmessages⟩ := hpost
          have hne : r.state.messages ≠ [] := by simp [hmessages]
          obtain ⟨message, messages, hcons⟩ := List.exists_cons_of_ne_nil hne
          obtain ⟨s, hs⟩ := exists_receive K r.job hwriter hcons
          exact hthread (by simp) rfl hs
      | cleanup | returned | panicked =>
        unfold ReadingFrom at hfrom
        rw [hm] at hfrom
        exact hfrom.elim

/-- **Some step that is no failure** uses up work, until the call has ended. -/
theorem AppendCall.Faithful.exists_step (hbytes : ∀ b, d₀.read task.archive = some b → b = bytes)
    (hinv : AppendCall.Inv task d₀ True d c) (h : AppendCall.Faithful K task d₀ d c) (hended : c.ended = false) :
    ∃ move d' c', move.fails = false ∧ task.step K move d c = some (d', c') ∧
      c'.work K task bytes < c.work K task bytes := by
  have hgo : (∃ move d' c', move.copies = false ∧ move.fails = false ∧ task.step K move d c = some (d', c')) →
      ∃ move d' c', move.fails = false ∧ task.step K move d c = some (d', c') ∧
        c'.work K task bytes < c.work K task bytes := by
    rintro ⟨move, d', c', hcopies, hcalm, hstep⟩
    have hlt := call_work hbytes hinv h hstep
    rw [hcopies] at hlt
    exact ⟨move, d', c', hcalm, hstep, hlt⟩
  have hmain : (appendStep K task d c).isSome = true →
      ∃ move d' c', move.copies = false ∧ move.fails = false ∧ task.step K move d c = some (d', c') := by
    intro hsome
    obtain ⟨⟨d', c'⟩, hstep⟩ := Option.isSome_iff_exists.1 hsome
    exact ⟨.main, d', c', rfl, rfl, hstep⟩
  obtain ⟨stage, tmp, threads⟩ := c
  cases stage with
  | copying src o done =>
    obtain ⟨hstanding, _⟩ := hinv
    obtain ⟨bytes', hread, hle, hcontent⟩ := h
    obtain rfl : bytes' = bytes := hbytes _ hread
    have hsrc := hstanding.archive_content hread
    by_cases hdone : bytes'.length ≤ done
    · refine hgo (hmain ?_)
      simp [appendStep, hsrc, hdone]
    · refine ⟨.copied bytes'.length, _, _, rfl, rfl, ?_⟩
      simp only [AppendCall.work, AppendCall.threadWork, hsrc, Option.getD_some, Bytes.length_slice]
      omega
  | scan =>
    obtain ⟨_, _, r, hr, _⟩ := h
    obtain rfl : threads = some r := hr
    refine hgo (hmain ?_)
    simp only [appendStep]
    split <;> rfl
  | read =>
    obtain ⟨_, _, _, _, r, hr, hresumed, _⟩ := h
    exact hgo (hresumed.exists_step rfl hr)
  | returned | panicked => cases hended
  | cleanup => exact hgo (hmain rfl)
  | copy =>
    refine hgo (hmain ?_)
    simp only [appendStep]
    split
    · rfl
    · split <;> rfl
  | start | openTmp | openArchive | load | rename =>
    refine hgo (hmain ?_)
    simp only [appendStep]
    split <;> rfl

end

/-! ## The end -/

/-- The moves of a call, on the disk and the call together. -/
theorem run_eq_steps {task : AppendTask} : ∀ (moves : List AppendMove) (d : Disk) (c : AppendCall),
    task.run K moves d c = Progress.steps (fun move x => task.step K move x.1 x.2) moves (d, c)
  | [], _, _ => rfl
  | move :: moves, d, c => by
    show (task.step K move d c).bind _ = (task.step K move d c).bind _
    congr 1
    funext x
    exact run_eq_steps moves x.1 x.2

end Cryo
