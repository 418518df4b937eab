import Cryo.AppendLiveness
import Cryo.Lib.Interference

/-!
# Compressions that race

Any number of compressions at once on one disk, each with its threads, some of them under the same name. The archive is
created with `create_new`, which is one call to the operating system, and written through its open file; but it is
removed by its name when the call fails.

* `CompressCall.Kept`: what every call keeps, whatever the others do; until it is removed its name stands for its file.
* `compress_race`: of the calls under one name at most one returns `Ok`, and the name stands for what it has written;
  those that return `Err` leave no trace, and no other file is touched.
* `race_won`: where nothing fails, one of the calls under a free name does return `Ok`.
-/

namespace Cryo

open Posix Threads

variable (K : Crates)

/-! ## One call -/

/-- A compression. -/
structure CompressTask where
  /-- Where a name leads. -/
  place : String → Loc
  /-- The number that the file system gives to the file the call makes. -/
  fresh : Nat
  setup : Setup
  os : Os
  args : CompressArgs
  indexNonce : Nonce

def CompressTask.archive (task : CompressTask) : Loc := task.place (archiveFilename task.args.archiveName)

/-- The part of the call before the threads start, on the disk. -/
def createArchive (task : CompressTask) : Act Disk CryoErrors (Path × List Path × ArchiveWriter) := do
  let (root, queue) ← Act.lift (prepare K task.setup task.args)
  let cipher ← Act.lift (Cipher.new K task.setup.prompts (task.args.header task.setup) task.args.confirm)
  let created ← Act.read fun d => d.createNew task.fresh task.archive
  match created, task.setup.createNew (archiveFilename task.args.archiveName) with
  | some d, some faults => do
    Act.modify fun _ => d
    let archive ← Act.lift (ArchiveWriter.writeHeader K (task.args.header task.setup) cipher (Sink.create faults))
    Act.modify fun d => d.write task.fresh archive.writer.bytes
    pure (root, queue, archive)
  | _, _ => Act.throw .invalidPath

inductive CompressCall where
  | start
  /-- The call has returned this error before its threads started. -/
  | failed (e : CryoErrors)
  | running (r : Running)

/-- The main thread is at `remove_file`. -/
def Running.removes (r : Running) : Threads.Move → Bool
  | .main =>
    match r.state.outbox, r.state.main with
    | [], .cleanup _ => true
    | _, _ => false
  | _ => false

/-- A step of a call. The threads write to their file, and what is removed is what stands for the name. -/
def CompressTask.step (task : CompressTask) (move : Threads.Move) (d : Disk) :
    CompressCall → Option (Disk × CompressCall)
  | .start =>
    match move, createArchive K task d with
    | .main, (.error e, d') => some (d', .failed e)
    | .main, (.ok (root, queue, archive), d') =>
      let job : Job := ⟨task.os, root, task.args.bs, archive, task.indexNonce⟩
      some (d', .running ⟨task.fresh, job, spawn job queue (some archive.writer.bytes)⟩)
    | _, _ => none
  | .running r => (r.step K move d).map fun x =>
    (if r.removes move then x.1.remove task.archive else x.1, .running x.2)
  | .failed _ => none

/-- What the call has returned. -/
def CompressCall.result : CompressCall → Option (Result Unit)
  | .start => none
  | .failed e => some (.error e)
  | .running r =>
    match r.state.main with
    | .returned result => some result
    | _ => none

/-- The calls at once: the one of this number takes its next step. -/
def race (tasks : Nat → CompressTask) :
    Nat × Threads.Move → Disk × List CompressCall → Option (Disk × List CompressCall) :=
  Interference.all fun i => (tasks i).step K

variable {K}

/-! ## What a step does -/

variable (K) in
/-- The header can be encoded, and nothing fails while it is put into the buffer of the file. -/
structure CompressTask.Buffers (task : CompressTask) : Prop where
  header : ∃ headerBytes, K.headerToVec (task.args.header task.setup) = some headerBytes
  buffer : ∀ faults, task.setup.createNew (archiveFilename task.args.archiveName) = some faults → faults 0 = none

/-- The archive is created where no name was, or nothing is changed. -/
theorem createArchive_outcome {task : CompressTask} (hbuffers : task.Buffers K) (d : Disk) :
    Act.wp (createArchive K task) (fun r d' => d.entry task.archive = none ∧ d.content task.fresh = none ∧
      d' = (d.make task.archive task.fresh).write task.fresh r.2.2.writer.bytes ∧
      prepare K task.setup task.args = .ok (r.1, r.2.1) ∧ ∃ faults,
        task.setup.createNew (archiveFilename task.args.archiveName) = some faults ∧
        ArchiveWriter.new K (some (Sink.create faults)) (task.args.header task.setup) task.setup.prompts
          task.args.confirm = .ok r.2.2)
      (fun _ d' => d' = d) d := by
  obtain ⟨headerBytes, hheader⟩ := hbuffers.header
  unfold createArchive
  rw [Act.wp_bind, Act.wp_lift]
  refine ⟨fun r hprepare => ?_, fun _ _ => rfl⟩
  obtain ⟨root, queue⟩ := r
  rw [Act.wp_bind, Act.wp_lift]
  refine ⟨fun cipher hcipher => ?_, fun _ _ => rfl⟩
  rw [Act.wp_bind, Act.wp_read]
  split
  · rename_i made faults hmade hcreate
    have hwrite := ArchiveWriter.writeHeader_eq hheader faults (hbuffers.buffer faults hcreate) cipher
    unfold Disk.createNew at hmade
    split at hmade
    · rename_i hfree
      cases hmade
      rw [hwrite]
      refine ⟨hfree.1, hfree.2, rfl, hprepare, faults, hcreate, ?_⟩
      unfold ArchiveWriter.new
      rw [hcipher]
      exact hwrite
    · cases hmade
  · rfl

/-- Only the step at `remove_file` makes the main thread one that has removed the archive. -/
theorem Running.removed_step {r : Running} {move : Threads.Move} {s : State}
    (h : Threads.step K r.job r.state move = some s) :
    if r.removes move then r.state.main.removed = false ∧ s.main.removed = true
    else s.main.removed = r.state.main.removed := by
  by_cases hmove : move = .main
  · subst hmove
    change mainStep r.job r.state = some s at h
    unfold Running.removes
    unfold mainStep at h
    cases houtbox : r.state.outbox with
    | cons b outbox =>
      rw [houtbox] at h
      cases h
      simp
    | nil =>
      rw [houtbox] at h
      cases hmain : r.state.main with
      | cleanup e =>
        simp only [hmain] at h
        cases h
        exact ⟨rfl, rfl⟩
      | next ps =>
        cases ps with
        | nil =>
          simp only [hmain] at h
          cases h
          rfl
        | cons p ps =>
          simp only [hmain] at h
          split at h
          all_goals cases h
          all_goals rfl
      | reading p pieces err ps =>
        cases pieces <;> cases err <;> simp only [hmain] at h <;> cases h <;> rfl
      | joining readResult =>
        simp only [hmain] at h
        repeat' split at h
        all_goals cases h
        all_goals rfl
      | waiting =>
        simp only [hmain] at h
        repeat' split at h
        all_goals cases h
        all_goals rfl
      | done readResult =>
        simp only [hmain] at h
        cases h
        rfl
      | returned result => simp [hmain] at h
      | panicked message => simp [hmain] at h
  · have hremoves : r.removes move = false := by
      cases move with
      | main => exact absurd rfl hmove
      | _ => rfl
    rw [hremoves, if_neg (by simp), (Threads.step_other hmove h).1]

/-! ## What every call keeps -/

variable (K) in
/-- The threads are those of the call, as they are when no other call runs. -/
def CompressTask.Runs (task : CompressTask) (job : Job) (s : State) : Prop :=
  ∃ root queue faults archive, prepare K task.setup task.args = .ok (root, queue) ∧
    task.setup.createNew (archiveFilename task.args.archiveName) = some faults ∧
    ArchiveWriter.new K (some (Sink.create faults)) (task.args.header task.setup) task.setup.prompts
      task.args.confirm = .ok archive ∧
    job = ⟨task.os, root, task.args.bs, archive, task.indexNonce⟩ ∧
    ∃ handed received, Threads.Inv K job queue handed received s

theorem CompressTask.Runs.step {task : CompressTask} {job : Job} {s s' : State} {move : Threads.Move}
    (h : task.Runs K job s) (hs : Threads.step K job s move = some s') : task.Runs K job s' := by
  obtain ⟨root, queue, faults, archive, hprepare, hfaults, hnew, rfl, handed, received, hinv⟩ := h
  exact ⟨root, queue, faults, archive, hprepare, hfaults, hnew, rfl,
    Threads.inv_step (ArchiveWriter.new_blocks hnew) hinv hs⟩

variable (K) in
/-- The threads of a call on the disk `d`: their file holds what the writer has written, and the name stands for it
until it is removed. -/
structure Started (task : CompressTask) (d : Disk) (r : Running) : Prop where
  file : r.file = task.fresh
  runs : task.Runs K r.job r.state
  content : d.content task.fresh = some r.state.writer.arch.writer.bytes
  entry : r.state.main.removed = false → d.entry task.archive = some (.file task.fresh)

variable (K) in
/-- What a call keeps: the number of its file is its own. -/
def CompressCall.Kept (task : CompressTask) (d : Disk) : CompressCall → Prop
  | .start | .failed _ => d.content task.fresh = none
  | .running r => Started K task d r

/-- The name of the archive stands for the file of the call. -/
def CompressCall.holds : CompressCall → Bool
  | .start | .failed _ => false
  | .running r => !r.state.main.removed

variable (K) in
/-- What a step of a call does to the disk and to the call. -/
inductive Stepped (task : CompressTask) (d : Disk) : CompressCall → Disk → CompressCall → Prop
  | refused {e : CryoErrors} : Stepped task d .start d (.failed e)
  | created {d' : Disk} {r : Running} : d.entry task.archive = none →
    d'.entry task.archive = some (.file task.fresh) → Disk.Within {task.archive} {task.fresh} d d' →
    r.state.main.removed = false → Started K task d' r → Stepped task d .start d' (.running r)
  | ran {d' : Disk} {r r' : Running} : d'.entry = d.entry → Disk.Within {task.archive} {task.fresh} d d' →
    r'.state.main.removed = r.state.main.removed → Started K task d' r' →
    Stepped task d (.running r) d' (.running r')
  | cleaned {d' : Disk} {r r' : Running} : d.entry task.archive = some (.file task.fresh) →
    d'.entry task.archive = none → Disk.Within {task.archive} {task.fresh} d d' →
    r.state.main.removed = false → r'.state.main.removed = true → Started K task d' r' →
    Stepped task d (.running r) d' (.running r')

theorem CompressTask.stepped {task : CompressTask} (hbuffers : task.Buffers K) {move : Threads.Move} {d d' : Disk}
    {c c' : CompressCall} (hkept : c.Kept K task d) (h : task.step K move d c = some (d', c')) :
    Stepped K task d c d' c' := by
  cases c with
  | failed e => cases h
  | start =>
    have houtcome := createArchive_outcome hbuffers d
    simp only [CompressTask.step] at h
    split at h
    · rename_i e d₁ hcreate
      cases h
      obtain rfl := (Act.of_wp houtcome).2 _ hcreate
      exact .refused
    · rename_i root queue archive d₁ hcreate
      cases h
      obtain ⟨hfree, _, rfl, hprepare, faults, hfaults, hnew⟩ := (Act.of_wp houtcome).1 _ hcreate
      refine .created hfree (Disk.make_self ..) ?_ rfl ⟨rfl, ⟨root, queue, faults, archive, hprepare, hfaults, hnew,
        rfl, [], [], Threads.inv_spawn _ queue⟩, Disk.write_self .., fun _ => Disk.make_self ..⟩
      exact (Disk.within_make (Set.mem_singleton _) (Set.mem_singleton _) d).trans
        (Disk.within_write (Set.mem_singleton _) _ _)
    · cases h
  | running r =>
    obtain ⟨⟨d₁, r'⟩, hstep, heq⟩ := Option.map_eq_some_iff.1 h
    obtain ⟨rfl, rfl⟩ := Prod.mk.inj heq
    obtain ⟨hfile, hruns, hcontent, hentry⟩ := hkept
    obtain ⟨hthreads, hr', hcontent'⟩ := Running.step_threads (hfile ▸ hcontent) hstep
    obtain ⟨hfile', hentry', hwithin⟩ := Running.step_cases hstep
    have hremoved := Running.removed_step hthreads
    have hwithin := hwithin {task.archive}
    rw [hfile] at hwithin
    rw [hfile', hfile] at hcontent'
    have hruns' : task.Runs K r'.job r'.state := by
      rw [show r'.job = r.job by rw [hr']]
      exact hruns.step hthreads
    cases hremoves : r.removes move with
    | false =>
      rw [hremoves, if_neg (by simp)] at hremoved
      rw [if_neg (by simp)]
      exact .ran hentry' hwithin hremoved ⟨hfile'.trans hfile, hruns', hcontent', fun hnot => by
        rw [hentry']
        exact hentry (hremoved.symm.trans hnot)⟩
    | true =>
      rw [hremoves, if_pos rfl] at hremoved
      rw [if_pos rfl]
      have hnamed := hentry hremoved.1
      have hunlink : d₁.remove task.archive = d₁.unlink task.archive :=
        Disk.remove_file ((congrFun hentry' _).trans hnamed)
      rw [hunlink]
      exact .cleaned hnamed (Disk.unlink_self ..) (hwithin.trans (Disk.within_unlink (Set.mem_singleton _) _))
        hremoved.1 hremoved.2
        ⟨hfile'.trans hfile, hruns', hcontent', fun hnot => absurd hnot (by rw [hremoved.2]; simp)⟩

/-! ## All calls -/

section
variable {tasks : Nat → CompressTask} {d₀ d d' : Disk} {calls calls' : List CompressCall}

/-- A step changes the file of the call, and what its name stands for. -/
theorem Stepped.frame {task : CompressTask} {c c' : CompressCall} (h : Stepped K task d c d' c') :
    Disk.Within {task.archive} {task.fresh} d d' := by
  cases h with
  | refused => exact .refl _ _ d
  | created _ _ hwithin | ran _ hwithin | cleaned _ _ hwithin => exact hwithin

theorem Stepped.kept {task : CompressTask} {c c' : CompressCall} (h : Stepped K task d c d' c')
    (hkept : c.Kept K task d) : c'.Kept K task d' := by
  cases h with
  | refused => exact hkept
  | created _ _ _ _ hstarted | ran _ _ _ hstarted | cleaned _ _ _ _ _ hstarted => exact hstarted

/-- **A call is not disturbed by another**: it has another file, and while its name stands for its file the other one
neither creates nor removes it. -/
theorem Stepped.others {task other : CompressTask} {c c' e : CompressCall} (h : Stepped K task d c d' c')
    (hfresh : other.fresh ≠ task.fresh) (hkept : e.Kept K other d) : e.Kept K other d' := by
  have hframe := h.frame
  have hcontent : d'.content other.fresh = d.content other.fresh := hframe.content _ hfresh
  cases e with
  | start | failed => exact hcontent.trans hkept
  | running r =>
    refine ⟨hkept.file, hkept.runs, hcontent.trans hkept.content, fun hnot => ?_⟩
    have hentry := hkept.entry hnot
    by_cases hsame : other.archive = task.archive
    · rw [hsame] at hentry ⊢
      cases h with
      | refused => exact hentry
      | created hfree => exact absurd hentry (by rw [hfree]; simp)
      | ran hsameEntry => rw [hsameEntry]; exact hentry
      | cleaned hnamed =>
        rw [hnamed] at hentry
        exact absurd (Entry.file.inj (Option.some.inj hentry)).symm hfresh
    · rw [hframe.entry _ hsame]
      exact hentry

/-- The name of a call that holds it stands for its file. -/
theorem CompressCall.Kept.entry {task : CompressTask} {c : CompressCall} (h : c.Kept K task d)
    (hholds : c.holds = true) : d.entry task.archive = some (.file task.fresh) := by
  cases c with
  | start | failed => cases hholds
  | running r => exact Started.entry h (by simpa [CompressCall.holds] using hholds)

variable (K) in
/-- The calls `calls` on the disk `d`, begun on `d₀`: a name that does not stand for what it stood for is that of a call
which holds it. -/
structure Raced (tasks : Nat → CompressTask) (d₀ d : Disk) (calls : List CompressCall) : Prop where
  kept : ∀ (i : Nat) (c : CompressCall), calls[i]? = some c → c.Kept K (tasks i) d
  free : ∀ (i : Nat) (c : CompressCall), calls[i]? = some c → c.holds = true → d₀.entry (tasks i).archive = none
  entry : ∀ l, d.entry l = d₀.entry l ∨ ∃ (i : Nat) (c : CompressCall), calls[i]? = some c ∧ c.holds = true ∧
    (tasks i).archive = l
  content : ∀ k, (∀ i, (tasks i).fresh ≠ k) → d.content k = d₀.content k

/-- A name where nothing is was free in the beginning. -/
theorem Raced.free_of_none (h : Raced K tasks d₀ d calls) {l : Loc} (hnone : d.entry l = none) : d₀.entry l = none := by
  rcases h.entry l with heq | ⟨i, c, hc, hholds, rfl⟩
  · exact heq.symm.trans hnone
  · rw [(h.kept i c hc).entry hholds] at hnone
    cases hnone

/-- The other calls are where they were. -/
theorem holder_of_set {i : Nat} {c c' : CompressCall} {l : Loc} (hc : calls[i]? = some c)
    (hholds : c.holds = true → c'.holds = true ∨ (tasks i).archive ≠ l)
    (h : ∃ (j : Nat) (e : CompressCall), calls[j]? = some e ∧ e.holds = true ∧ (tasks j).archive = l) :
    ∃ (j : Nat) (e : CompressCall), (calls.set i c')[j]? = some e ∧ e.holds = true ∧ (tasks j).archive = l := by
  obtain ⟨j, e, he, hj, hl⟩ := h
  have hi := (List.getElem?_eq_some_iff.1 hc).1
  by_cases hij : j = i
  · subst hij
    cases hc.symm.trans he
    exact ⟨j, c', List.getElem?_set_self hi, (hholds hj).resolve_right (· hl), hl⟩
  · exact ⟨j, e, by rw [List.getElem?_set_ne (Ne.symm hij)]; exact he, hj, hl⟩

/-- **A step of any call keeps this.** -/
theorem raced_step (hbuffers : ∀ i, (tasks i).Buffers K)
    (hfresh : ∀ i j, (tasks i).fresh = (tasks j).fresh → i = j) {m : Nat × Threads.Move} (h : Raced K tasks d₀ d calls)
    (hstep : race K tasks m (d, calls) = some (d', calls')) : Raced K tasks d₀ d' calls' := by
  have hkept' := Interference.all_keeps_step (I := fun i d c => c.Kept K (tasks i) d)
    (fun (_ : True) hkept hstep => (CompressTask.stepped (hbuffers _) hkept hstep).kept hkept)
    (fun (_ : True) hne hkept hother hstep => (CompressTask.stepped (hbuffers _) hkept hstep).others
      (fun heq => hne (hfresh _ _ heq).symm) hother) trivial h.kept hstep
  obtain ⟨i, move⟩ := m
  obtain ⟨c, c', hc, hmove, hset⟩ := Interference.all_eq_some.1 hstep
  dsimp only at hc hmove hset
  subst hset
  have hi := (List.getElem?_eq_some_iff.1 hc).1
  have hstepped : Stepped K (tasks i) d c d' c' := CompressTask.stepped (hbuffers i) (h.kept i c hc) hmove
  have hself : (calls.set i c')[i]? = some c' := List.getElem?_set_self hi
  have hframe := hstepped.frame
  have hfree : c'.holds = true → d₀.entry (tasks i).archive = none := by
    intro hholds
    cases hstepped with
    | refused => cases hholds
    | created hnone => exact h.free_of_none hnone
    | ran _ _ hremoved =>
      refine h.free i _ hc ?_
      simpa [CompressCall.holds, hremoved] using hholds
    | cleaned _ _ _ _ hremoved => simp [CompressCall.holds, hremoved] at hholds
  refine ⟨hkept', fun j e hj hholds => ?_, fun l => ?_, fun k hk => ?_⟩
  · rcases Interference.getElem?_set_cases hj with ⟨rfl, rfl⟩ | ⟨_, hj⟩
    · exact hfree hholds
    · exact h.free j e hj hholds
  · by_cases hl : (tasks i).archive = l
    · subst hl
      cases hstepped with
      | refused => exact (h.entry _).imp_right (holder_of_set hc fun hholds => by cases hholds)
      | created _ _ _ hremoved => exact .inr ⟨i, _, hself, by simp [CompressCall.holds, hremoved], rfl⟩
      | ran hsame _ hremoved =>
        rw [hsame]
        exact (h.entry _).imp_right (holder_of_set hc fun hholds => .inl (by
          simpa [CompressCall.holds, hremoved] using hholds))
      | cleaned _ hgone _ hremoved =>
        rw [hgone]
        exact .inl (h.free i _ hc (by simp [CompressCall.holds, hremoved])).symm
    · rw [hframe.entry l (fun heq => hl heq.symm)]
      exact (h.entry l).imp_right (holder_of_set hc fun _ => .inr hl)
  · rw [hframe.content k fun heq => hk i heq.symm]
    exact h.content k hk

theorem raced_run (hbuffers : ∀ i, (tasks i).Buffers K)
    (hfresh : ∀ i j, (tasks i).fresh = (tasks j).fresh → i = j) (hunused : ∀ i, d₀.content (tasks i).fresh = none)
    {n : Nat} {moves : List (Nat × Threads.Move)}
    (hrun : Progress.steps (race K tasks) moves (d₀, List.replicate n .start) = some (d, calls)) :
    Raced K tasks d₀ d calls := by
  have hstart : ∀ (i : Nat) (c : CompressCall), (List.replicate n CompressCall.start)[i]? = some c → c = .start :=
    fun i c hc => List.eq_of_mem_replicate (List.mem_of_getElem? hc)
  refine Progress.steps_keeps (I := fun x => Raced K tasks d₀ x.1 x.2)
    (fun _ h hstep => raced_step hbuffers hfresh h hstep) (fun _ _ => trivial)
    ⟨fun i c hc => ?_, fun i c hc hholds => ?_, fun _ => .inl rfl, fun _ _ => rfl⟩ hrun
  · obtain rfl := hstart i c hc
    exact hunused i
  · obtain rfl := hstart i c hc
    cases hholds

/-- The call of this number has returned. -/
def Answered (calls : List CompressCall) (i : Nat) (r : Result Unit) : Prop :=
  ∃ c, calls[i]? = some c ∧ c.result = some r

/-- A call that has returned `Ok` holds its name. -/
theorem CompressCall.holds_of_ok {c : CompressCall} (h : c.result = some (.ok ())) :
    c.holds = true ∧ ∃ r, c = .running r ∧ r.state.main = .returned (.ok ()) := by
  cases c with
  | start => cases h
  | failed e => cases h
  | running r =>
    have hmain : r.state.main = .returned (.ok ()) := by
      simp only [CompressCall.result] at h
      split at h
      · rename_i hmain
        rw [hmain, Option.some.inj h]
      · cases h
    exact ⟨by simp [CompressCall.holds, hmain, Main.removed], r, rfl, hmain⟩

/-- A call that holds its name has not returned `Err`. -/
theorem CompressCall.not_holds {c : CompressCall} (h : c = .start ∨ ∃ e, c.result = some (.error e)) :
    c.holds = false := by
  cases c with
  | start | failed e => rfl
  | running r =>
    rcases h with h | ⟨e, h⟩
    · cases h
    · simp only [CompressCall.result] at h
      split at h
      · rename_i hmain
        simp [CompressCall.holds, hmain, Option.some.inj h, Main.removed]
      · cases h

/-- What the threads of a call have written when it returned `Ok`. -/
theorem CompressTask.Runs.wrote {task : CompressTask} {job : Job} {s : State} (h : task.Runs K job s)
    (hmain : s.main = .returned (.ok ())) : ∃ draws arch, s.writer.arch = arch ∧
      ∀ delivery, initializeCompression K task.setup ⟨task.os, draws, delivery⟩ task.args = .ok arch := by
  obtain ⟨root, queue, faults, archive, hprepare, hfaults, hnew, rfl, _, _, hinv⟩ := h
  obtain ⟨reader, processed, arch, hwriter, hcompleted⟩ := hinv.completed hmain
  obtain ⟨draws, hrun⟩ := hcompleted.compressFiles (ArchiveWriter.new_blocks hnew)
  refine ⟨draws, arch, by rw [hwriter]; rfl, fun delivery => ?_⟩
  unfold initializeCompression
  rw [hprepare, hfaults]
  simp only [Except.ok_bind, Option.map_some, hnew]
  exact hrun delivery

/-- **Compressions do not disturb each other**, in every interleaving and whatever fails. A call that has returned `Ok`
was the only one under its name to do so, and reading the name gives what the call has written; where the calls under a
name have all failed, the name stands for what it stood for; names and files that were there are untouched. -/
theorem compress_race (hbuffers : ∀ i, (tasks i).Buffers K)
    (hfresh : ∀ i j, (tasks i).fresh = (tasks j).fresh → i = j) (hunused : ∀ i, d₀.content (tasks i).fresh = none)
    {n : Nat} {moves : List (Nat × Threads.Move)}
    (hrun : Progress.steps (race K tasks) moves (d₀, List.replicate n .start) = some (d, calls)) :
    (∀ i, Answered calls i (.ok ()) → d₀.entry (tasks i).archive = none ∧
      ∃ draws arch, d.read (tasks i).archive = some arch.writer.bytes ∧
        ∀ delivery, initializeCompression K (tasks i).setup ⟨(tasks i).os, draws, delivery⟩ (tasks i).args = .ok arch) ∧
    (∀ i j, Answered calls i (.ok ()) → Answered calls j (.ok ()) → (tasks i).archive = (tasks j).archive → i = j) ∧
    (∀ l, (∀ i c, calls[i]? = some c → (tasks i).archive = l → c = .start ∨ ∃ e, c.result = some (.error e)) →
      d.entry l = d₀.entry l) ∧
    (∀ l, d₀.entry l ≠ none → d.entry l = d₀.entry l) ∧
    ∀ k, (∀ i, (tasks i).fresh ≠ k) → d.content k = d₀.content k := by
  have h := raced_run hbuffers hfresh hunused hrun
  refine ⟨?_, ?_, fun l hfailed => ?_, fun l hthere => ?_, h.content⟩
  · rintro i ⟨c, hc, hok⟩
    obtain ⟨hholds, r, rfl, hmain⟩ := CompressCall.holds_of_ok hok
    have hstarted : Started K (tasks i) d r := h.kept i _ hc
    obtain ⟨draws, arch, harch, hwrote⟩ := hstarted.runs.wrote hmain
    refine ⟨h.free i _ hc hholds, draws, arch, ?_, hwrote⟩
    unfold Disk.read
    rw [Disk.opens_file ((h.kept i _ hc).entry hholds), Option.bind_some, hstarted.content, harch]
  · rintro i j ⟨c, hc, hok⟩ ⟨e, he, hok'⟩ hsame
    have hi := (h.kept i _ hc).entry (CompressCall.holds_of_ok hok).1
    have hj := (h.kept j _ he).entry (CompressCall.holds_of_ok hok').1
    rw [hsame, hj] at hi
    exact (hfresh _ _ (Entry.file.inj (Option.some.inj hi))).symm
  · rcases h.entry l with heq | ⟨i, c, hc, hholds, hl⟩
    · exact heq
    · rw [CompressCall.not_holds (hfailed i c hc hl)] at hholds
      cases hholds
  · rcases h.entry l with heq | ⟨i, c, hc, hholds, rfl⟩
    · exact heq
    · exact absurd (h.free i c hc hholds) hthere

/-- One compression after the other, under one name. -/
def CompressTask.small (i : Nat) : CompressTask where
  place name := [name]
  fresh := i + 1
  setup := Setup.plain [[.normal "src", .normal "a"]]
  os := Job.small.os
  args := CompressArgs.plain 2
  indexNonce := Vector.replicate 12 0

theorem CompressTask.small_buffers (i : Nat) : (small i).Buffers Crates.blank where
  header := ⟨[], rfl⟩
  buffer faults h := by
    cases h
    rfl

theorem CompressTask.small_fresh (i j : Nat) (h : (small i).fresh = (small j).fresh) : i = j := Nat.succ.inj h

theorem CompressTask.small_unused (i : Nat) : (Disk.ofFiles [(["b"], [5])]).content (small i).fresh = none := by
  simp [Disk.ofFiles, CompressTask.small]

/-- Two calls; the second finds the name taken. -/
def racing : List (Nat × Threads.Move) := (0, .main) :: (1, .main) :: overtaking.map (0, ·)

/-- One of two calls has written the archive, and the other file is as it was. -/
theorem compress_race_two :
    let d₀ := Disk.ofFiles [(["b"], [5])]
    ∃ (d : Disk) (calls : List CompressCall), Progress.steps (race Crates.blank CompressTask.small) racing
        (d₀, List.replicate 2 .start) = some (d, calls) ∧ Answered calls 0 (.ok ()) ∧
      (∃ draws arch, d.read ["a.cryo"] = some arch.writer.bytes ∧ ∀ delivery, initializeCompression Crates.blank
        (CompressTask.small 0).setup ⟨(CompressTask.small 0).os, draws, delivery⟩ (CompressArgs.plain 2) = .ok arch) ∧
      d.entry ["b"] = d₀.entry ["b"] := by
  intro d₀
  have hshown : (Progress.steps (race Crates.blank CompressTask.small) racing (d₀, List.replicate 2 .start)).map
      (fun x => x.2[0]?.bind CompressCall.result) = some (some (.ok ())) := by decide +kernel
  obtain ⟨⟨d, calls⟩, hrun, hshown⟩ := Option.map_eq_some_iff.1 hshown
  have hok : Answered calls 0 (.ok ()) := Option.bind_eq_some_iff.1 hshown
  obtain ⟨hwrote, _, _, hthere, _⟩ := compress_race CompressTask.small_buffers CompressTask.small_fresh
    CompressTask.small_unused hrun
  exact ⟨d, calls, hrun, hok, (hwrote 0 hok).2, hthere ["b"] (by decide +kernel)⟩

/-! ## One of them wins -/

variable (K) in
/-- The call succeeds alone, where its name is free: what comes before the creation does, and the run in one thread
does, whatever nonces are drawn. -/
structure CompressTask.Able (task : CompressTask) : Prop where
  opens : ∃ root queue cipher faults, prepare K task.setup task.args = .ok (root, queue) ∧
    Cipher.new K task.setup.prompts (task.args.header task.setup) task.args.confirm = .ok cipher ∧
    task.setup.createNew (archiveFilename task.args.archiveName) = some faults
  succeeds : ∀ root queue faults archive, prepare K task.setup task.args = .ok (root, queue) →
    task.setup.createNew (archiveFilename task.args.archiveName) = some faults →
    ArchiveWriter.new K (some (Sink.create faults)) (task.args.header task.setup) task.setup.prompts
      task.args.confirm = .ok archive →
    (⟨task.os, root, task.args.bs, archive, task.indexNonce⟩ : Job).Succeeds K queue

/-- Nothing has failed but the creation of an archive whose name was taken. -/
def CompressCall.Unhurt (task : CompressTask) (d : Disk) : CompressCall → Prop
  | .start => True
  | .failed e => e = .invalidPath ∧ d.entry task.archive ≠ none
  | .running r => Calm r.state

/-- A call that succeeds alone is refused where its name is taken. -/
theorem CompressTask.Able.refused {task : CompressTask} (hable : task.Able K) (hbuffers : task.Buffers K) {d₁ : Disk}
    {e : CryoErrors} (hunused : d.content task.fresh = none) (h : createArchive K task d = (.error e, d₁)) :
    e = .invalidPath ∧ d.entry task.archive ≠ none := by
  obtain ⟨root, queue, cipher, faults, hprepare, hcipher, hcreate⟩ := hable.opens
  obtain ⟨headerBytes, hheader⟩ := hbuffers.header
  have hwrite := ArchiveWriter.writeHeader_eq hheader faults (hbuffers.buffer faults hcreate) cipher
  unfold createArchive at h
  rw [hprepare, hcipher] at h
  simp only [Act.lift_ok_bind, hcreate] at h
  by_cases hfree : d.entry task.archive = none
  · exfalso
    have hmade : d.createNew task.fresh task.archive = some (d.make task.archive task.fresh) := if_pos ⟨hfree, hunused⟩
    rw [Act.bind_run] at h
    simp only [Act.read, hmade, hwrite] at h
    cases h
  · have hmade : d.createNew task.fresh task.archive = none := if_neg fun hboth => hfree hboth.1
    rw [Act.bind_run] at h
    simp only [Act.read, hmade] at h
    cases h
    exact ⟨rfl, hfree⟩

/-- **A step that is no failure hurts no call**, its own first. -/
theorem unhurt_step {task : CompressTask} (hable : task.Able K) (hbuffers : task.Buffers K) {move : Threads.Move}
    (hmove : move.fails = false) {c c' : CompressCall} (hkept : c.Kept K task d) (hunhurt : c.Unhurt task d)
    (h : task.step K move d c = some (d', c')) : c'.Unhurt task d' := by
  cases c with
  | failed e => cases h
  | start =>
    simp only [CompressTask.step] at h
    split at h
    · rename_i e d₁ hcreate
      cases h
      obtain ⟨rfl, htaken⟩ := hable.refused hbuffers hkept hcreate
      rw [(Act.of_wp (createArchive_outcome hbuffers d)).2 _ hcreate]
      exact ⟨rfl, htaken⟩
    · cases h
      exact calm_spawn _ _ _
    · cases h
  | running r =>
    obtain ⟨⟨d₁, r'⟩, hstep, heq⟩ := Option.map_eq_some_iff.1 h
    obtain ⟨_, rfl⟩ := Prod.mk.inj heq
    obtain ⟨hfile, hruns, hcontent, _⟩ := hkept
    obtain ⟨hthreads, _, _⟩ := Running.step_threads (hfile ▸ hcontent) hstep
    obtain ⟨root, queue, faults, archive, hprepare, hfaults, hnew, hjob, _, _, hinv⟩ := hruns
    have hblock : r.job.archive.index.block = [] := by
      rw [hjob]
      exact ArchiveWriter.new_blocks hnew
    have hsucceeds := hable.succeeds root queue faults archive hprepare hfaults hnew
    rw [← hjob] at hsucceeds
    obtain ⟨reader, hplan⟩ := hsucceeds.plan hblock
    exact calm_step hblock hplan hinv hunhurt hmove hthreads

theorem not_removed {main : Main} (h : main.calm = true) : main.removed = false := by
  cases main with
  | returned result =>
    cases result with
    | ok _ => rfl
    | error e => cases h
  | _ => rfl

/-- No name is freed. -/
theorem Stepped.unhurt_others {task other : CompressTask} {c c' e : CompressCall} (h : Stepped K task d c d' c')
    (hunhurt : c'.Unhurt task d') (hother : e.Unhurt other d) : e.Unhurt other d' := by
  cases e with
  | start => trivial
  | running r => exact hother
  | failed e =>
    refine ⟨hother.1, ?_⟩
    have htaken := hother.2
    by_cases hsame : other.archive = task.archive
    · rw [hsame] at htaken ⊢
      cases h with
      | refused => exact htaken
      | created _ hmade => rw [hmade]; simp
      | ran hentry => rw [hentry]; exact htaken
      | cleaned _ _ _ _ hremoved =>
        -- what has removed its archive has failed
        rw [not_removed (Calm.main hunhurt)] at hremoved
        cases hremoved
    · rw [h.frame.entry _ hsame]
      exact htaken

/-- A call that is not stuck is over, when nothing is hurt: it was refused or has succeeded. -/
theorem CompressTask.over_of_stuck {task : CompressTask} {c : CompressCall} (hkept : c.Kept K task d)
    (hunhurt : c.Unhurt task d) (hstuck : ∀ move : Threads.Move, move.fails = false → task.step K move d c = none) :
    c.result = some (.ok ()) ∨ c.result = some (.error .invalidPath) ∧ d.entry task.archive ≠ none := by
  cases c with
  | start =>
    have hnone := hstuck .main rfl
    rcases hcreate : createArchive K task d with ⟨r, d₁⟩
    cases r with
    | error e => simp [CompressTask.step, hcreate] at hnone
    | ok r => simp [CompressTask.step, hcreate] at hnone
  | failed e =>
    obtain ⟨rfl, htaken⟩ := hunhurt
    exact .inr ⟨rfl, htaken⟩
  | running r =>
    left
    obtain ⟨hfile, hruns, hcontent, _⟩ := hkept
    obtain ⟨_, _, _, _, _, _, _, _, _, _, hinv⟩ := hruns
    cases hover : r.state.main.over with
    | true =>
      simp only [CompressCall.result]
      rw [hunhurt.returned hover]
    | false =>
      obtain ⟨move, s', hmove, hstep⟩ := hinv.exists_step hover
      obtain ⟨d', hrunning⟩ := Running.step_of_threads (hfile ▸ hcontent) hstep
      have hnone := hstuck move hmove
      simp only [CompressTask.step, hrunning, Option.map_some] at hnone
      cases hnone

/-- **One of the calls under a free name wins.** In an interleaving in which nothing fails, of calls that succeed alone:
either a call under the name can go on, or exactly one has returned `Ok` and the others have been refused. -/
theorem race_won (hbuffers : ∀ i, (tasks i).Buffers K) (hable : ∀ i, (tasks i).Able K)
    (hfresh : ∀ i j, (tasks i).fresh = (tasks j).fresh → i = j) (hunused : ∀ i, d₀.content (tasks i).fresh = none)
    {n : Nat} {moves : List (Nat × Threads.Move)} (hmoves : ∀ m ∈ moves, m.2.fails = false)
    (hrun : Progress.steps (race K tasks) moves (d₀, List.replicate n .start) = some (d, calls)) {l : Loc}
    (hfree : d₀.entry l = none) (hcalled : ∃ i < n, (tasks i).archive = l) :
    (∃ i move x, (tasks i).archive = l ∧ move.fails = false ∧ race K tasks (i, move) (d, calls) = some x) ∨
    ∃ i < n, (tasks i).archive = l ∧ Answered calls i (.ok ()) ∧
      ∀ j < n, (tasks j).archive = l → j ≠ i → Answered calls j (.error .invalidPath) := by
  by_cases hstuck : ∃ i move x, (tasks i).archive = l ∧ move.fails = false ∧ race K tasks (i, move) (d, calls) = some x
  · exact .inl hstuck
  right
  have h := raced_run hbuffers hfresh hunused hrun
  have hlength : calls.length = n := (Interference.length_all hrun).trans (List.length_replicate ..)
  have hunhurt := Interference.all_keeps (I := fun i d c => c.Kept K (tasks i) d ∧ c.Unhurt (tasks i) d)
    (fun {i m s c s' c'} (hm : Threads.Move.fails m = false) hboth hstep =>
      ⟨(CompressTask.stepped (hbuffers i) hboth.1 hstep).kept hboth.1,
        unhurt_step (hable i) (hbuffers i) hm hboth.1 hboth.2 hstep⟩)
    (fun {i j m s c s' c' e} hm hne hboth hother hstep =>
      have hstepped := CompressTask.stepped (hbuffers i) hboth.1 hstep
      ⟨hstepped.others (fun heq => hne (hfresh _ _ heq).symm) hother.1,
        hstepped.unhurt_others (unhurt_step (hable i) (hbuffers i) hm hboth.1 hboth.2 hstep) hother.2⟩)
    hmoves (fun j e he => by
      obtain rfl := List.eq_of_mem_replicate (List.mem_of_getElem? he)
      exact ⟨hunused j, trivial⟩) hrun
  -- every call under the name is over
  have hover : ∀ i < n, (tasks i).archive = l → ∃ c, calls[i]? = some c ∧ c.Kept K (tasks i) d ∧
      (c.result = some (.ok ()) ∨ c.result = some (.error .invalidPath) ∧ d.entry l ≠ none) := by
    intro i hi hl
    obtain ⟨c, hc⟩ : ∃ c, calls[i]? = some c := ⟨_, List.getElem?_eq_getElem (hlength.symm ▸ hi)⟩
    obtain ⟨hkept, hcalm⟩ := hunhurt i _ hc
    refine ⟨c, hc, hkept, hl ▸ CompressTask.over_of_stuck hkept hcalm fun move hmove => ?_⟩
    by_contra hsome
    obtain ⟨⟨d', c'⟩, hstep⟩ := Option.ne_none_iff_exists'.1 hsome
    exact hstuck ⟨i, move, (d', calls.set i c'), hl, hmove, Interference.all_eq_some.2 ⟨c, c', hc, hstep, rfl⟩⟩
  -- one of them holds the name
  obtain ⟨i, c, hc, hholds, hl⟩ : ∃ (i : Nat) (c : CompressCall), calls[i]? = some c ∧ c.holds = true ∧
      (tasks i).archive = l := by
    obtain ⟨i, hi, hl⟩ := hcalled
    obtain ⟨c, hc, _, hok | ⟨_, htaken⟩⟩ := hover i hi hl
    · exact ⟨i, c, hc, (CompressCall.holds_of_ok hok).1, hl⟩
    · exact (h.entry l).resolve_left fun heq => htaken (heq.trans hfree)
  have hi : i < n := hlength ▸ (List.getElem?_eq_some_iff.1 hc).1
  obtain ⟨c', hc', hkept, hok | ⟨hrefused, _⟩⟩ := hover i hi hl
  · refine ⟨i, hi, hl, ⟨c', hc', hok⟩, fun j hj hl' hne => ?_⟩
    obtain ⟨e, he, hkept', hok' | ⟨hrefused, _⟩⟩ := hover j hj hl'
    · have hentry := hkept.entry (CompressCall.holds_of_ok hok).1
      have hentry' := hkept'.entry (CompressCall.holds_of_ok hok').1
      rw [hl', ← hl, hentry] at hentry'
      exact absurd (hfresh _ _ (Entry.file.inj (Option.some.inj hentry'))).symm hne
    · exact ⟨e, he, hrefused⟩
  · cases hc.symm.trans hc'
    rw [CompressCall.not_holds (.inr ⟨_, hrefused⟩)] at hholds
    cases hholds

theorem CompressTask.small_able (i : Nat) : (small i).Able Crates.blank where
  opens := ⟨[.normal "src"], [[.normal "src", .normal "a"]], .none, fun _ => none, rfl, rfl, rfl⟩
  succeeds root queue faults archive hprepare hfaults hnew := by
    cases hprepare
    cases hfaults
    cases hnew
    exact small_succeeds

/-- The first of two calls wins. -/
theorem race_won_two :
    let d₀ := Disk.ofFiles [(["b"], [5])]
    ∃ (d : Disk) (calls : List CompressCall), Progress.steps (race Crates.blank CompressTask.small) racing
        (d₀, List.replicate 2 .start) = some (d, calls) ∧
      ((∃ i move x, (CompressTask.small i).archive = ["a.cryo"] ∧ move.fails = false ∧
        race Crates.blank CompressTask.small (i, move) (d, calls) = some x) ∨
      ∃ i < 2, (CompressTask.small i).archive = ["a.cryo"] ∧ Answered calls i (.ok ()) ∧
        ∀ j < 2, (CompressTask.small j).archive = ["a.cryo"] → j ≠ i → Answered calls j (.error .invalidPath)) := by
  intro d₀
  have hshown : (Progress.steps (race Crates.blank CompressTask.small) racing
      (d₀, List.replicate 2 .start)).isSome = true := by decide +kernel
  obtain ⟨⟨d, calls⟩, hrun⟩ := Option.isSome_iff_exists.1 hshown
  exact ⟨d, calls, hrun, race_won CompressTask.small_buffers CompressTask.small_able CompressTask.small_fresh
    CompressTask.small_unused (by decide) hrun (by decide +kernel) ⟨0, by decide, by decide +kernel⟩⟩

end

end Cryo
