import Cryo.Flow
import Cryo.Neighbours

/-!
# An append is a sequential append

Whatever the schedule of its threads and whatever fails, a call of `append_file` that returns `Ok` has put under the
archive's name what `appendFile` makes of the archive in one thread. Before that moment the name stands for the archive
as it was.

* `AppendCall.Faithful`, `faithful_step`: what the copy and the threads hold in every stage.
* `append_refines`: what a call that has returned `Ok` leaves.
* `append_snapshot`: who has opened the archive reads one of the two archives, whatever the call does then.
-/

namespace Cryo

open Posix Threads

variable {K : Crates}

/-! ## A step of the threads -/

namespace Threads

variable {job : Job} {s s' : State}

/-- The main thread leaves the writer where it is. -/
theorem mainStep_writer (h : mainStep job s = some s') : s'.writer = s.writer := by
  unfold mainStep at h
  repeat' split at h
  all_goals cases h
  all_goals rfl

/-- A main thread that is over stays over. -/
theorem mainStep_over (hover : s.main.over = true) (h : mainStep job s = some s') : s'.main = s.main := by
  unfold mainStep at h
  split at h
  · cases h
    rfl
  · cases hmain : s.main with
    | returned | panicked => simp [hmain] at h
    | _ => simp [hmain, Main.over] at hover

/-- A writer that has ended stays as it is. -/
theorem step_ended {move : Move} {result : Except Halt Unit} {arch : ArchiveWriter}
    (hended : s.writer = .ended result arch) (h : step K job s move = some s') : s'.writer = s.writer := by
  cases move with
  | main => exact mainStep_writer h
  | receive | panicWriter | disconnect => simp [step, hended] at h
  | _ =>
    unfold step at h
    dsimp only at h
    repeat' split at h
    all_goals cases h
    all_goals rfl

theorem State.withBytes_self (s : State) : s.withBytes s.writer.arch.writer.bytes = s := by
  obtain ⟨path, main, reader, outbox, pool, messages, writer⟩ := s
  cases writer <;> rfl

/-- At the join of the pool the loop over the paths has ended with `Ok`. -/
theorem ReadingFrom.joining {start : ReadState} {queue : List Path} {handed : List RawBlock}
    {fin : Option (List FileEntry × Nat)} {readResult : Result Unit}
    (h : ReadingFrom job start queue handed fin s) (hmain : s.main = .joining readResult) : fin = none ∧
      readFiles job.os job.root job.blockSize queue start = (.ok (), s.reader) ∧ s.outbox = [] ∧
      handed = s.reader.produced := by
  unfold ReadingFrom at h
  rw [hmain] at h
  cases readResult with
  | ok _ => exact h
  | error e => exact h.elim

/-- What the pool and the writer keep does not depend on the root. -/
theorem Flow.of_root {handed : List RawBlock} {received : List ProcessedBlock}
    {fin : Option (List FileEntry × Nat)} (h : Flow K job handed received fin s) (root : Path) :
    Flow K { job with root := root } handed received fin s := ⟨h.accounts, h.pool, h.absorbed, h.post⟩

end Threads

/-- The threads of a call step as those of a compression, where the file is what the writer has written. -/
theorem Running.step_threads {r r' : Running} {move : Threads.Move} {d d' : Disk}
    (hcontent : d.content r.file = some r.state.writer.arch.writer.bytes) (h : r.step K move d = some (d', r')) :
    Threads.step K r.job r.state move = some r'.state ∧ r' = { r with state := r'.state } ∧
      d'.content r'.file = some r'.state.writer.arch.writer.bytes := by
  unfold Running.step at h
  split at h
  · rename_i result arch hended
    obtain ⟨s, hs, heq⟩ := Option.map_eq_some_iff.1 h
    cases heq
    refine ⟨hs, rfl, ?_⟩
    rw [step_ended hended hs]
    exact hcontent
  · rw [hcontent, Option.getD_some, Threads.State.withBytes_self] at h
    obtain ⟨s, hs, heq⟩ := Option.map_eq_some_iff.1 h
    cases heq
    exact ⟨hs, rfl, Disk.write_self ..⟩

/-- The steps of the main thread in the loop and at the joins. -/
inductive ReadStep (c : AppendCall) (r : Running) : AppendCall → Prop
  | left (e : CryoErrors) : ReadStep c r (c.leave r e)
  | sent {readResult : Result Unit} {result : Except Halt Unit} {q : List ProcessedBlock} {e : Nat}
    {arch : ArchiveWriter} : r.state.outbox = [] → r.state.main = .joining readResult →
    r.state.pool.result = some result → joined result = .ok () → r.state.writer = .running q e arch →
    ReadStep c r { c with threads := some { r with state := { r.state with
      messages := r.state.messages ++ [.finalize r.state.reader.files r.state.reader.streamPosition]
      main := .waiting } } }
  | lost {readResult : Result Unit} {result result' : Except Halt Unit} {arch : ArchiveWriter} :
    r.state.outbox = [] → r.state.main = .joining readResult → r.state.pool.result = some result →
    joined result = .ok () → r.state.writer = .ended result' arch → ReadStep c r (c.withMain r .waiting)
  | finished {result : Except Halt Unit} {arch : ArchiveWriter} : r.state.outbox = [] → r.state.main = .waiting →
    r.state.writer = .ended result arch → joined result = .ok () → ReadStep c r { c with stage := .rename }
  | panicked {message : String} : r.state.outbox = [] → r.state.main = .panicked message →
    ReadStep c r { c with stage := .panicked message }
  | went {s : State} : (r.state.outbox = [] → r.state.main.closed = true → ∃ e, r.state.main = .cleanup e) →
    (∀ e, r.state.outbox = [] → r.state.main ≠ .done (.error e)) → mainStep r.job r.state = some s →
    ReadStep c r { c with threads := some { r with state := s } }

theorem readStep_of {c c' : AppendCall} {r : Running} (h : readStep c r = some c') : ReadStep c r c' := by
  unfold readStep at h
  split at h
  · cases h
    exact .left _
  · rename_i houtbox hmain
    split at h
    · cases h
    · rename_i result hresult
      split at h
      · cases h
        exact .left _
      · rename_i hjoined
        split at h
        · rename_i hwriter
          cases h
          exact .sent houtbox hmain hresult hjoined hwriter
        · rename_i hwriter
          cases h
          exact .lost houtbox hmain hresult hjoined hwriter
  · rename_i houtbox hmain
    split at h
    · cases h
    · rename_i result arch hwriter
      split at h
      · cases h
        exact .left _
      · rename_i hjoined
        cases h
        exact .finished houtbox hmain hwriter hjoined
  · rename_i houtbox hmain
    cases h
    exact .panicked houtbox hmain
  · rename_i hdone hjoining hwaiting hpanicked
    obtain ⟨s, hs, rfl⟩ := Option.map_eq_some_iff.1 h
    refine .went (fun houtbox hclosed => ?_) (fun e houtbox hmain => hdone e houtbox hmain) hs
    cases hmain : r.state.main with
    | next | reading | done => rw [hmain] at hclosed; cases hclosed
    | joining readResult => exact absurd hmain (hjoining readResult houtbox)
    | waiting => exact absurd hmain (hwaiting houtbox)
    | panicked message => exact absurd hmain (hpanicked message houtbox)
    | cleanup e => exact ⟨e, rfl⟩
    | returned result =>
      unfold mainStep at hs
      simp [houtbox, hmain] at hs

/-! ## The invariant -/

/-- The reader when the threads start. -/
def FileStructs.reader (structs : FileStructs) : ReadState :=
  .resume structs.index.files structs.index.totalStreamSize structs.index.block.length

variable (K) in
/-- The threads of a call on `d₀` whose archive is `bytes`, which loads: the file they have open holds what the writer
has written, and the main thread reads `queue`. -/
structure Resumed (task : AppendTask) (d₀ d : Disk) (bytes : Bytes) (structs : FileStructs) (root : Path)
    (queue : List Path) (r : Running) : Prop where
  read : d₀.read task.archive = some bytes
  load : loadArchive K task bytes = .ok structs
  job : r.job = ⟨task.env.os, root, structs.header.blockSize, structs.reopen bytes task.setup.faults,
    task.env.draws.indexNonce⟩
  content : d.content r.file = some r.state.writer.arch.writer.bytes
  flow : (∃ message, r.state.main = .panicked message) ∨ ∃ handed received fin,
    Flow K r.job handed received fin r.state ∧ ReadingFrom r.job structs.reader queue handed fin r.state

variable (K) in
/-- The threads of a call that is about to rename the copy. -/
def Written (task : AppendTask) (d₀ d : Disk) (c : AppendCall) : Prop :=
  ∃ bytes structs root queue r arch, c.threads = some r ∧ Resumed K task d₀ d bytes structs root queue r ∧
    queueAppend task.setup structs.index.files task.args.fileToAppend = .ok (root, queue) ∧
    r.state.main = .waiting ∧ r.state.writer = .ended (.ok ()) arch

variable (K) in
/-- What the copy and the threads hold in every stage of a call on the disk `d₀`. -/
def AppendCall.Faithful (task : AppendTask) (d₀ d : Disk) (c : AppendCall) : Prop :=
  match c.stage with
  | .copying _ o done => ∃ bytes, d₀.read task.archive = some bytes ∧ done ≤ bytes.length ∧
      d.content o = some (bytes.take done)
  | .openTmp => c.threads = none ∧ ∃ bytes, d₀.read task.archive = some bytes ∧
      ∀ o, d.entry task.copy = some (.file o) → d.content o = some bytes
  | .openArchive o | .load o _ => c.threads = none ∧ ∃ bytes, d₀.read task.archive = some bytes ∧
      d.content o = some bytes
  | .scan => ∃ bytes structs r, c.threads = some r ∧ Resumed K task d₀ d bytes structs [] [] r ∧
      r.state.main = .next [] ∧ r.state.reader = structs.reader ∧ r.state.outbox = []
  | .read => ∃ bytes structs root queue r, c.threads = some r ∧ Resumed K task d₀ d bytes structs root queue r ∧
      queueAppend task.setup structs.index.files task.args.fileToAppend = .ok (root, queue)
  | .rename | .returned (.ok _) => Written K task d₀ d c
  | .start | .copy | .cleanup _ | .returned (.error _) | .panicked _ => True

section

variable {task : AppendTask} {d₀ d d' : Disk} {c c' : AppendCall} {bytes : Bytes} {structs : FileStructs} {root : Path}
  {queue : List Path} {r r' : Running}

/-- The pool or the writer goes on. -/
theorem Resumed.step {move : Threads.Move} (hmove : move ≠ .main)
    (h : Resumed K task d₀ d bytes structs root queue r) (hstep : r.step K move d = some (d', r')) :
    Resumed K task d₀ d' bytes structs root queue r' ∧ r'.state.main = r.state.main ∧
      r'.state.reader = r.state.reader ∧ r'.state.outbox = r.state.outbox := by
  obtain ⟨hs, hr', hcontent⟩ := Running.step_threads h.content hstep
  have hsame := step_main_same hmove hs
  have hjob : r'.job = r.job := by rw [hr']
  refine ⟨⟨h.read, h.load, hjob.trans h.job, hcontent, ?_⟩, hsame⟩
  rcases h.flow with ⟨message, hmain⟩ | ⟨handed, received, fin, hflow, hfrom⟩
  · exact .inl ⟨message, hsame.1.trans hmain⟩
  · obtain ⟨received', hflow'⟩ := flow_other hmove hfrom.not_over hflow hs
    rw [hjob]
    exact .inr ⟨handed, received', fin, hflow', hfrom.congr hsame⟩

/-- The main thread has not panicked. -/
theorem Resumed.reading (h : Resumed K task d₀ d bytes structs root queue r) (hover : r.state.main.over = false) :
    ∃ handed received fin, Flow K r.job handed received fin r.state ∧
      ReadingFrom r.job structs.reader queue handed fin r.state := by
  rcases h.flow with ⟨message, hmain⟩ | hflow
  · rw [hmain] at hover
    cases hover
  · exact hflow

/-- **Before the copy is renamed** nothing goes on but the main thread. -/
theorem Written.rest (h : Written K task d₀ d c) (hr : c.threads = some r) {move : Threads.Move}
    (hmove : move ≠ .main) : r.step K move d = none := by
  obtain ⟨bytes, structs, root, queue, r', arch, hr', hresumed, _, hwaiting, hended⟩ := h
  obtain rfl : r = r' := Option.some.inj (hr.symm.trans hr')
  obtain ⟨handed, received, fin, hflow, hreading⟩ := hresumed.reading (by rw [hwaiting]; rfl)
  unfold ReadingFrom at hreading
  rw [hwaiting] at hreading
  obtain ⟨rfl, _⟩ := hreading
  unfold Running.step
  rw [hended]
  simp only [hflow.rest hended hmove, Option.map_none]

/-! ## The main thread -/

/-- The main thread goes on in the loop. -/
theorem Resumed.main {s : State} (h : Resumed K task d₀ d bytes structs root queue r)
    (hwriter : s.writer = r.state.writer) (hflow : (∃ message, s.main = .panicked message) ∨ ∃ handed received fin,
      Flow K r.job handed received fin s ∧ ReadingFrom r.job structs.reader queue handed fin s) :
    Resumed K task d₀ d bytes structs root queue { r with state := s } where
  read := h.read
  load := h.load
  job := h.job
  content := by
    show d.content r.file = some s.writer.arch.writer.bytes
    rw [hwriter]
    exact h.content
  flow := hflow

/-- **In the loop and at the joins.** -/
theorem faithful_read (h : AppendCall.Faithful K task d₀ d c) (hstage : c.stage = .read) (hr : c.threads = some r)
    (hread : readStep c r = some c') : AppendCall.Faithful K task d₀ d c' := by
  obtain ⟨stage, tmp, threads⟩ := c
  obtain rfl : stage = .read := hstage
  obtain rfl : threads = some r := hr
  obtain ⟨bytes, structs, root, queue, r₁, hr₁, h, hqueue⟩ := h
  obtain rfl : r = r₁ := Option.some.inj hr₁
  cases readStep_of hread with
  | left e => trivial
  | sent houtbox hmain hresult hjoined hwriter =>
    obtain ⟨handed, received, fin, hflow, hfrom⟩ := h.reading (by rw [hmain]; rfl)
    obtain ⟨rfl, hjoining⟩ := hfrom.joining hmain
    rw [joined_eq_ok hjoined] at hresult
    exact ⟨bytes, structs, root, queue, _, rfl, h.main rfl
      (.inr ⟨handed, received, _, hflow.send hresult _ _ rfl, rfl, hjoining⟩), hqueue⟩
  | lost houtbox hmain hresult hjoined hwriter =>
    obtain ⟨handed, received, fin, hflow, hfrom⟩ := h.reading (by rw [hmain]; rfl)
    obtain ⟨rfl, hjoining⟩ := hfrom.joining hmain
    rw [joined_eq_ok hjoined] at hresult
    exact ⟨bytes, structs, root, queue, _, rfl, h.main rfl
      (.inr ⟨handed, received, _, hflow.lose hresult _ _ hwriter rfl, rfl, hjoining⟩), hqueue⟩
  | finished houtbox hmain hwriter hjoined =>
    rw [joined_eq_ok hjoined] at hwriter
    exact ⟨bytes, structs, root, queue, r, _, rfl, h, hqueue, hmain, hwriter⟩
  | panicked houtbox hmain => trivial
  | went hclosed herror hs =>
    refine ⟨bytes, structs, root, queue, _, rfl, h.main (mainStep_writer hs) ?_, hqueue⟩
    rcases h.flow with ⟨message, hmain⟩ | ⟨handed, received, fin, hflow, hfrom⟩
    · exact .inl ⟨message, (mainStep_over (by rw [hmain]; rfl) hs).trans hmain⟩
    · have hreading : r.state.outbox ≠ [] ∨ r.state.main.closed = false := by
        by_cases houtbox : r.state.outbox = []
        · refine .inr ?_
          by_contra hopen
          obtain ⟨e, hmain⟩ := hclosed houtbox (by simpa using hopen)
          unfold ReadingFrom at hfrom
          rw [hmain] at hfrom
          exact hfrom
        · exact .inl houtbox
      rcases flow_main hflow hfrom hreading herror hs with hpanicked | ⟨handed', hflow', hfrom'⟩
      · exact .inl hpanicked
      · exact .inr ⟨handed', received, fin, hflow', hfrom'⟩

/-- The threads when they start. -/
theorem resumed_spawn (hread : d₀.read task.archive = some bytes) (hload : loadArchive K task bytes = .ok structs)
    {o : Nat} (hcontent : d.content o = some bytes) :
    Resumed K task d₀ d bytes structs [] [] (task.spawn o structs bytes) where
  read := hread
  load := hload
  job := rfl
  content := hcontent
  flow := .inr ⟨[], [], none, (flow_spawn _ [] none).of_main _ _ (.inl rfl), rfl, rfl, rfl⟩

/-- The paths are queued. -/
theorem Resumed.queued (h : Resumed K task d₀ d bytes structs [] [] r) (hmain : r.state.main = .next [])
    (hreader : r.state.reader = structs.reader) (root : Path) (queue : List Path) :
    Resumed K task d₀ d bytes structs root queue { r with
      job := { r.job with root := root }
      state := { r.state with main := .next queue } } where
  read := h.read
  load := h.load
  job := by rw [h.job]
  content := h.content
  flow := by
    obtain ⟨handed, received, fin, hflow, hfrom⟩ := h.reading (by rw [hmain]; rfl)
    unfold ReadingFrom at hfrom
    rw [hmain] at hfrom
    obtain ⟨rfl, _, hhanded⟩ := hfrom
    refine .inr ⟨handed, received, none, (hflow.of_root root).of_main _ _ (.inl (by rw [hmain]; rfl)), rfl, ?_, hhanded⟩
    rw [hreader]

/-- A working call finds the archive as it was. -/
theorem Working.archive_content {src o : Nat} (h : Working task d₀ d c src o)
    (hread : d₀.read task.archive = some bytes) : d.content src = some bytes := by
  rw [h.within.content src (fun heq => h.ne heq)]
  unfold Disk.read at hread
  rwa [h.archive] at hread

/-- **A step of the main thread.** -/
theorem faithful_main (hinv : AppendCall.Inv task d₀ True d c) (h : AppendCall.Faithful K task d₀ d c)
    (hstep : appendStep K task d c = some (d', c')) : AppendCall.Faithful K task d₀ d' c' := by
  cases mainStep_of_appendStep hstep with
  | unnamed _ | named _ | unread _ | uncreated _ | tmpMissing _ | archiveMissing _ | rejected _ | unqueued _
  | unrenamed _ | cleaned => trivial
  | created hsrc hcreate =>
    obtain ⟨rfl, _⟩ := hinv
    obtain ⟨bytes, hbytes⟩ := Option.ne_none_iff_exists'.1 (Disk.content_of_opens hsrc)
    refine ⟨bytes, ?_, Nat.zero_le _, (Disk.create_ok hcreate).empty⟩
    unfold Disk.read
    rw [hsrc]
    exact hbytes
  | copied hdone =>
    obtain ⟨hstanding, hthreads⟩ := hinv
    obtain ⟨bytes, hread, hle, hcontent⟩ := h
    refine ⟨hthreads, bytes, hread, fun o' ho' => ?_⟩
    have hentry := hstanding.stands
    rw [ho'] at hentry
    cases hentry
    rw [hstanding.archive_content hread, Option.getD_some] at hdone
    rw [hcontent, List.take_of_length_le hdone]
  | tmpOpened hopen =>
    obtain ⟨src, o, hstanding⟩ := hinv
    obtain ⟨hthreads, bytes, hread, hcontent⟩ := h
    have hpath : task.loc _ = task.copy := hstanding.path
    rw [hpath, Disk.opens_file hstanding.stands] at hopen
    cases hopen
    exact ⟨hthreads, bytes, hread, hcontent _ hstanding.stands⟩
  | archiveOpened hopen => exact h
  | loaded hload =>
    have hstanding : Standing _ _ _ _ _ _ := hinv
    obtain ⟨_, bytes, hread, hcontent⟩ := h
    rw [hstanding.archive_content hread, Option.getD_some] at hload
    rw [hcontent, Option.getD_some]
    exact ⟨bytes, _, _, rfl, resumed_spawn hread hload hcontent, rfl, rfl, rfl⟩
  | queued hqueue =>
    obtain ⟨bytes, structs, r, hr, hresumed, hmain, hreader, _⟩ := h
    cases hr
    rw [hreader] at hqueue
    exact ⟨bytes, structs, _, _, _, rfl, hresumed.queued hmain hreader _ _, hqueue⟩
  | read hread => exact faithful_read h rfl rfl hread
  | renamed hrename =>
    obtain ⟨src, o, hstanding⟩ := hinv
    rw [hstanding.rename] at hrename
    cases hrename
    obtain ⟨bytes, structs, root, queue, r, arch, hr, hresumed, hqueue, hmain, hwriter⟩ := h
    exact ⟨bytes, structs, root, queue, r, arch, hr,
      ⟨hresumed.read, hresumed.load, hresumed.job, hresumed.content, hresumed.flow⟩, hqueue, hmain, hwriter⟩

/-- A piece of the copy. -/
theorem faithful_copied {n : Nat} (hinv : AppendCall.Inv task d₀ True d c) (h : AppendCall.Faithful K task d₀ d c)
    (hstep : copyStep n d c = some (d', c')) : AppendCall.Faithful K task d₀ d' c' := by
  obtain ⟨stage, tmp, threads⟩ := c
  unfold copyStep at hstep
  split at hstep
  · rename_i src o done hstage
    obtain rfl : stage = .copying src o done := hstage
    obtain ⟨hstanding, _⟩ := hinv
    obtain ⟨bytes, hread, hle, hcontent⟩ := h
    rw [hstanding.archive_content hread, hcontent] at hstep
    cases hstep
    have hlen : (Bytes.slice done n bytes).length ≤ bytes.length - done := by simp [Bytes.slice]
    refine ⟨bytes, hread, by simp only [Option.getD_some]; omega, ?_⟩
    simp only [Option.getD_some, Disk.write_self, Option.some.injEq]
    have hend := Bytes.overwrite_end (Bytes.slice done n bytes) (bytes.take done)
    rw [List.length_take_of_le hle] at hend
    rw [hend, List.take_add]
    simp [Bytes.slice, List.take_eq_take_iff]
  · cases hstep

/-- A call to the operating system fails. -/
theorem faithful_fail {e : Errno} (hstep : failStep task e c = some c') : AppendCall.Faithful K task d₀ d c' := by
  obtain ⟨stage, tmp, threads⟩ := c
  cases stage <;> cases hstep <;> trivial

/-- The pool or the writer. -/
theorem faithful_thread {move : Threads.Move} (hinv : AppendCall.Inv task d₀ True d c)
    (h : AppendCall.Faithful K task d₀ d c) (hstep : threadStep K move d c = some (d', c')) :
    AppendCall.Faithful K task d₀ d' c' := by
  obtain ⟨hmove, r, r', hr, rfl, hthread⟩ := threadStep_eq_some.1 hstep
  have hnone : c.threads ≠ none := by simp [hr]
  obtain ⟨stage, tmp, threads⟩ := c
  have hwritten : Written K task d₀ d ⟨stage, tmp, threads⟩ → False := fun hwritten => by
    rw [hwritten.rest hr hmove] at hthread
    cases hthread
  cases stage with
  | copying => exact absurd hinv.2 hnone
  | openTmp => exact absurd h.1 hnone
  | openArchive => exact absurd h.1 hnone
  | load => exact absurd h.1 hnone
  | scan =>
    obtain ⟨bytes, structs, r₁, hr₁, hresumed, hmain, hreader, houtbox⟩ := h
    obtain rfl : r = r₁ := Option.some.inj (hr.symm.trans hr₁)
    obtain ⟨hresumed', hmain', hreader', houtbox'⟩ := hresumed.step hmove hthread
    exact ⟨bytes, structs, r', rfl, hresumed', hmain'.trans hmain, hreader'.trans hreader, houtbox'.trans houtbox⟩
  | read =>
    obtain ⟨bytes, structs, root, queue, r₁, hr₁, hresumed, hqueue⟩ := h
    obtain rfl : r = r₁ := Option.some.inj (hr.symm.trans hr₁)
    exact ⟨bytes, structs, root, queue, r', rfl, (hresumed.step hmove hthread).1, hqueue⟩
  | rename => exact (hwritten h).elim
  | returned result =>
    cases result with
    | ok _ => exact (hwritten h).elim
    | error e => trivial
  | start | copy | cleanup | panicked => trivial

/-- **Every step keeps it.** -/
theorem faithful_step {move : AppendMove} (hinv : AppendCall.Inv task d₀ True d c)
    (h : AppendCall.Faithful K task d₀ d c) (hstep : task.step K move d c = some (d', c')) :
    AppendCall.Faithful K task d₀ d' c' := by
  cases move with
  | main => exact faithful_main hinv h hstep
  | copied n => exact faithful_copied hinv h hstep
  | fail e =>
    obtain ⟨c₁, hfail, heq⟩ := Option.map_eq_some_iff.1 hstep
    cases heq
    exact faithful_fail hfail
  | thread move => exact faithful_thread hinv h hstep

section

variable (hlink : ∀ t, d₀.entry task.copy ≠ some (.link t))
  (halias : ∀ o, d₀.entry task.copy = some (.file o) → d₀.opens task.archive ≠ some o)

include hlink halias

/-- **Every run keeps it.** -/
theorem faithful_run {moves : List AppendMove} (hinv : AppendCall.Inv task d₀ True d c)
    (h : AppendCall.Faithful K task d₀ d c) (hrun : task.run K moves d c = some (d', c')) :
    AppendCall.Inv task d₀ True d' c' ∧ AppendCall.Faithful K task d₀ d' c' := by
  induction moves generalizing d c with
  | nil =>
    cases hrun
    exact ⟨hinv, h⟩
  | cons move moves ih =>
    obtain ⟨d₁, c₁, hstep, hrun⟩ := Interleave.runs_cons.1 hrun
    exact ih (inv_step hlink halias (fun _ _ => trivial) hinv hstep) (faithful_step hinv h hstep) hrun

end

end

/-! ## What is left -/

variable (K) in
/-- In one thread, `append_file` makes `arch` of the archive on the disk `d`. -/
def AppendTask.Appends (task : AppendTask) (d : Disk) (arch : ArchiveWriter) : Prop :=
  ∃ bytes draws, d.read task.archive = some bytes ∧ draws.indexNonce = task.env.draws.indexNonce ∧
    ∀ delivery, appendFile K task.setup ⟨task.env.os, draws, delivery⟩ bytes task.args = .ok arch

variable {task : AppendTask} {d₀ d d' : Disk} {c c' : AppendCall}

/-- What the writer has written when the copy is renamed. -/
theorem Written.appends (h : Written K task d₀ d c) : ∃ r arch, c.threads = some r ∧ task.Appends K d₀ arch ∧
    d.content r.file = some arch.writer.bytes := by
  obtain ⟨bytes, structs, root, queue, r, arch, hr, hresumed, hqueue, hmain, hended⟩ := h
  obtain ⟨handed, received, fin, hflow, hfrom⟩ := hresumed.reading (by rw [hmain]; rfl)
  unfold ReadingFrom at hfrom
  rw [hmain] at hfrom
  obtain ⟨rfl, hread, _, rfl⟩ := hfrom
  have hids := resumed_ids hread
  rw [hresumed.job] at hread
  obtain ⟨nonces, hwritten⟩ := hflow.written (by rw [hresumed.job]; exact hids) hended
  have hcontent := hresumed.content
  rw [hended] at hcontent
  refine ⟨r, arch, hr, ⟨bytes, ⟨nonces, task.env.draws.indexNonce⟩, hresumed.read, rfl, fun delivery => ?_⟩, hcontent⟩
  obtain ⟨s, hload, hseek⟩ := Except.bind_eq_ok.1 hresumed.load
  obtain ⟨_, hseek, hs⟩ := Except.bind_eq_ok.1 hseek
  cases hs
  have hwritten := hwritten delivery
  rw [hresumed.job] at hwritten
  unfold appendFile appendFiles
  simp only [hload, hseek, hqueue, Except.mapError, Except.ok_bind]
  have hread : readFiles task.env.os root (structs.reopen bytes task.setup.faults).header.blockSize queue
      (.resume (structs.reopen bytes task.setup.faults).index.files
        (structs.reopen bytes task.setup.faults).index.totalStreamSize
        (structs.reopen bytes task.setup.faults).index.block.length) = (.ok (), r.state.reader) := hread
  rw [hread]
  exact hwritten

/-- What is left under the archive's name. -/
theorem Written.left (h : Written K task d₀ d c) {left : Prop} (hended : Ended task d₀ left d c (.ok ())) :
    ∃ arch, task.Appends K d₀ arch ∧ d.read task.archive = some arch.writer.bytes := by
  obtain ⟨o, _, _, _, harchive, hfile⟩ := hended
  obtain ⟨r, arch, hr, happends, hcontent⟩ := h.appends
  refine ⟨arch, happends, ?_⟩
  unfold Disk.read
  rw [Disk.opens_file harchive, Option.bind_some, ← hfile r hr]
  exact hcontent

/-- **An append refines the sequential one.** A call that has returned `Ok`, in whatever order its threads took their
steps and whatever failed on the way, has left under the archive's name what `appendFile` makes of the bytes that were
there, for any order of delivery. The name of the copy is no link, and no other name of the archive's file. -/
theorem append_refines {moves : List AppendMove} (hlink : ∀ t, d₀.entry task.copy ≠ some (.link t))
    (halias : ∀ o, d₀.entry task.copy = some (.file o) → d₀.opens task.archive ≠ some o)
    (hrun : task.run K moves d₀ .start = some (d, c)) (hreturned : c.stage = .returned (.ok ())) :
    ∃ arch, task.Appends K d₀ arch ∧ d.read task.archive = some arch.writer.bytes := by
  obtain ⟨hinv, h⟩ := faithful_run hlink halias (inv_start task d₀ True) trivial hrun
  unfold AppendCall.Inv at hinv
  unfold AppendCall.Faithful at h
  rw [hreturned] at hinv h
  exact h.left hinv

/-- A file of two bytes is appended. -/
theorem append_refines_two :
    let K := Crates.tabled [Header.stored 2] [indexOfA, indexOfAB]
    let d₀ := Disk.ofFiles [(["a.cryo"], storedA)]
    ∃ (d : Disk) (c : AppendCall) (arch : ArchiveWriter), AppendTask.two.run K appending d₀ .start = some (d, c) ∧
      AppendTask.two.Appends K d₀ arch ∧ d.read ["a.cryo"] = some arch.writer.bytes ∧
      d.read ["a.cryo"] ≠ d₀.read ["a.cryo"] := by
  intro K d₀
  have hshown : (AppendTask.two.run K appending d₀ .start).map
      (fun r => (r.2.result, (r.1.read ["a.cryo"]).map List.length)) = some (some (.ok ()), some 39) := by decide +kernel
  obtain ⟨⟨d, c⟩, hrun, hshown⟩ := Option.map_eq_some_iff.1 hshown
  obtain ⟨hresult, hread⟩ := Prod.mk.inj hshown
  have hnone : d₀.entry AppendTask.two.copy = none := by decide +kernel
  obtain ⟨arch, happends, harchive⟩ :=
    append_refines (by simp [hnone]) (by simp [hnone]) hrun (AppendCall.stage_of_result hresult)
  refine ⟨d, c, arch, hrun, happends, harchive, fun heq => ?_⟩
  rw [heq] at hread
  exact absurd hread (by decide +kernel)

/-- Whatever the call has come to, the file of the archive holds what it held. -/
theorem AppendCall.Inv.kept {left : Prop} (h : AppendCall.Inv task d₀ left d c)
    (halias : ∀ o, d₀.entry task.copy = some (.file o) → d₀.opens task.archive ≠ some o) {src : Nat}
    (hsrc : d₀.opens task.archive = some src) : d.content src = d₀.content src := by
  have hworking : ∀ {src' o : Nat}, Working task d₀ d c src' o → d.content src = d₀.content src := by
    intro src' o h
    have hsame := h.archive
    rw [hsrc] at hsame
    cases hsame
    exact h.within.content src fun heq => h.ne heq
  obtain ⟨stage, tmp, threads⟩ := c
  cases stage with
  | start | copy => rw [h.1]
  | copying => exact hworking h.1.toWorking
  | openArchive => exact hworking h.choose_spec.toWorking
  | load => exact hworking (Standing.toWorking h)
  | openTmp | scan | read | rename | cleanup | panicked => exact hworking h.choose_spec.choose_spec.toWorking
  | returned result =>
    cases result with
    | ok _ =>
      obtain ⟨o, horigin, hwithin, _⟩ := h
      refine hwithin.content src fun heq => ?_
      obtain rfl : src = o := heq
      rcases horigin with hfile | ⟨_, hfresh, rfl⟩
      · exact halias src hfile hsrc
      · exact Disk.content_of_opens hsrc hfresh
    | error e =>
      rcases h with ⟨rfl, _⟩ | ⟨src', o, h, _⟩
      · rfl
      · exact hworking h

/-- Until the call has returned `Ok`, the archive is opened as before. -/
theorem AppendCall.Inv.opens {left : Prop} (h : AppendCall.Inv task d₀ left d c)
    (hreturned : c.stage ≠ .returned (.ok ())) : d.opens task.archive = d₀.opens task.archive := by
  have hworking : ∀ {src o : Nat}, Working task d₀ d c src o → d.opens task.archive = d₀.opens task.archive :=
    fun h => h.opens.trans h.archive.symm
  obtain ⟨stage, tmp, threads⟩ := c
  cases stage with
  | start | copy => rw [h.1]
  | copying => exact hworking h.1.toWorking
  | openArchive => exact hworking h.choose_spec.toWorking
  | load => exact hworking (Standing.toWorking h)
  | openTmp | scan | read | rename | cleanup | panicked => exact hworking h.choose_spec.choose_spec.toWorking
  | returned result =>
    cases result with
    | ok _ => exact absurd rfl hreturned
    | error e =>
      rcases h with ⟨rfl, _⟩ | ⟨src', o, h, _⟩
      · rfl
      · exact hworking h

/-- Until then it reads as before. -/
theorem AppendCall.Inv.read_archive {left : Prop} (h : AppendCall.Inv task d₀ left d c)
    (halias : ∀ o, d₀.entry task.copy = some (.file o) → d₀.opens task.archive ≠ some o)
    (hreturned : c.stage ≠ .returned (.ok ())) : d.read task.archive = d₀.read task.archive := by
  unfold Disk.read
  rw [h.opens hreturned]
  cases hsrc : d₀.opens task.archive with
  | none => rfl
  | some src => exact h.kept halias hsrc

/-- A call that has returned `Ok` is over. -/
theorem Written.over (h : Written K task d₀ d c) (hreturned : c.stage = .returned (.ok ())) {moves : List AppendMove}
    (hrun : task.run K moves d c = some (d', c')) : d' = d ∧ c' = c := by
  cases moves with
  | nil =>
    cases hrun
    exact ⟨rfl, rfl⟩
  | cons move moves =>
    obtain ⟨d₁, c₁, hstep, _⟩ := Interleave.runs_cons.1 hrun
    obtain ⟨stage, tmp, threads⟩ := c
    obtain rfl : stage = .returned (.ok ()) := hreturned
    cases move with
    | main => cases hstep
    | copied n => cases hstep
    | fail e => cases hstep
    | thread move =>
      obtain ⟨hmove, r, r', hr, _, hthread⟩ := threadStep_eq_some.1 hstep
      rw [h.rest hr hmove] at hthread
      cases hthread

/-- **Who has opened the archive reads an archive.** At any moment of a call, in any schedule and whatever fails, the
file that is opened under the archive's name holds the archive as it was, or what the sequential append makes of it; and
it holds that as long as the call goes on. -/
theorem append_snapshot {moves moves' : List AppendMove} {i : Nat}
    (hlink : ∀ t, d₀.entry task.copy ≠ some (.link t))
    (halias : ∀ o, d₀.entry task.copy = some (.file o) → d₀.opens task.archive ≠ some o)
    (hrun : task.run K moves d₀ .start = some (d, c)) (hopen : d.opens task.archive = some i)
    (hrun' : task.run K moves' d c = some (d', c')) : d'.content i = d.content i ∧
      (d.content i = d₀.read task.archive ∨ ∃ arch, task.Appends K d₀ arch ∧ d.content i = some arch.writer.bytes) := by
  obtain ⟨hinv, h⟩ := faithful_run hlink halias (inv_start task d₀ True) trivial hrun
  by_cases hreturned : c.stage = .returned (.ok ())
  · unfold AppendCall.Inv at hinv
    unfold AppendCall.Faithful at h
    rw [hreturned] at hinv h
    obtain ⟨rfl, _⟩ := h.over hreturned hrun'
    obtain ⟨arch, happends, hread⟩ := h.left hinv
    unfold Disk.read at hread
    rw [hopen] at hread
    exact ⟨rfl, .inr ⟨arch, happends, hread⟩⟩
  · have hinv' := (faithful_run hlink halias hinv h hrun').1
    have hsrc := hinv.opens hreturned
    rw [hopen] at hsrc
    refine ⟨(hinv'.kept halias hsrc.symm).trans (hinv.kept halias hsrc.symm).symm, .inl ?_⟩
    rw [← hinv.read_archive halias hreturned]
    unfold Disk.read
    rw [hopen]
    rfl

/-- The file that was opened while the copy was being written is not the one that is there in the end. -/
theorem append_snapshot_two :
    let K := Crates.tabled [Header.stored 2] [indexOfA, indexOfAB]
    let d₀ := Disk.ofFiles [(["a.cryo"], storedA)]
    ∃ (d d' : Disk) (c c' : AppendCall) (i : Nat),
      AppendTask.two.run K (appending.take 18) d₀ .start = some (d, c) ∧
      AppendTask.two.run K (appending.drop 18) d c = some (d', c') ∧ c'.stage = .returned (.ok ()) ∧
      d.opens ["a.cryo"] = some i ∧ d'.opens ["a.cryo"] ≠ some i ∧ d'.content i = d.content i ∧
      (d.content i = some storedA ∨ ∃ arch, AppendTask.two.Appends K d₀ arch ∧ d.content i = some arch.writer.bytes) := by
  intro K d₀
  have hshown : (AppendTask.two.run K appending d₀ .start).map (fun r => (r.2.result, r.1.opens ["a.cryo"])) =
      some (some (.ok ()), some 7) := by decide +kernel
  obtain ⟨⟨d', c'⟩, hrun, hshown⟩ := Option.map_eq_some_iff.1 hshown
  obtain ⟨hresult, hopens'⟩ := Prod.mk.inj hshown
  rw [← List.take_append_drop 18 appending] at hrun
  obtain ⟨d, c, hpre, hpost⟩ := Interleave.runs_append.1 hrun
  have hopens : (AppendTask.two.run K (appending.take 18) d₀ .start).map (fun r => r.1.opens ["a.cryo"]) =
      some (some 0) := by decide +kernel
  rw [show AppendTask.two.run K (appending.take 18) d₀ .start = some (d, c) from hpre] at hopens
  have hopens := Option.some.inj hopens
  have hnone : d₀.entry AppendTask.two.copy = none := by decide +kernel
  obtain ⟨hsame, hold⟩ := append_snapshot (by simp [hnone]) (by simp [hnone]) hpre hopens hpost
  refine ⟨d, d', c, c', 0, hpre, hpost, AppendCall.stage_of_result hresult, hopens, ?_, hsame, ?_⟩
  · simp [hopens']
  · rw [show d₀.read AppendTask.two.archive = some storedA by decide +kernel] at hold
    exact hold

end Cryo
