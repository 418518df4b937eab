import Cryo.Idempotent
import Cryo.Neighbours

/-!
# An append and its own copy

The copy stands in the directory of the archive before the path to append is scanned, so the scan can find it, and the
main thread then reads the file that the writer writes. Nothing is assumed of the disk: the name of the copy may be free
or not, a link, or another name of any file.

`AppendCall.Copying` follows the copy from its opening to the loop over the paths.

* `own_copy_iff`: the copy is among the paths exactly when one of its names stands at the path to append or below it, as
  a path that the archive does not have.
* `copy_read`: the directory of the archive is appended to it.
-/

namespace Cryo

open Posix

variable {K : Crates}

/-! ## The paths that are left -/

namespace Threads

/-- The paths that the main thread has not come to. -/
def Main.rest : Main → List Path
  | .next queue | .reading _ _ _ queue => queue
  | _ => []

variable {job : Job} {s s' : State}

/-- The main thread takes the paths from its queue. -/
theorem mainStep_rest (h : mainStep job s = some s') : ∀ p ∈ s'.main.rest, p ∈ s.main.rest := by
  intro p hp
  unfold mainStep at h
  split at h
  · cases h
    exact hp
  · split at h
    · cases h
      cases hp
    · rename_i hmain
      rw [hmain]
      split at h
      · cases h
        exact List.mem_cons_of_mem _ hp
      · cases h
        exact List.mem_cons_of_mem _ hp
      · cases h
        cases hp
      · cases h
        cases hp
    · rename_i hmain
      rw [hmain]
      cases h
      exact hp
    · cases h
      cases hp
    · rename_i hmain
      rw [hmain]
      cases h
      exact hp
    · cases h
      cases hp
    · split at h
      · cases h
      · split at h <;> cases h <;> cases hp
    · split at h
      · cases h
      · split at h <;> cases h <;> cases hp
    · cases h
      cases hp
    · cases h
    · cases h

/-- The other threads leave it where it is. -/
theorem step_other {move : Move} (hmove : move ≠ .main) (h : step K job s move = some s') :
    s'.main = s.main ∧ s'.reader = s.reader := by
  cases move with
  | main => exact absurd rfl hmove
  | _ =>
    unfold step at h
    dsimp only at h
    repeat' split at h
    all_goals cases h
    all_goals exact ⟨rfl, rfl⟩

end Threads

/-- The same in a call, where the main thread may leave. -/
theorem readStep_rest {c c' : AppendCall} {r : Running} (hr : c.threads = some r) (h : readStep c r = some c') :
    ∃ r', c'.threads = some r' ∧ ∀ p ∈ r'.state.main.rest, p ∈ r.state.main.rest := by
  unfold readStep at h
  split at h
  · cases h
    exact ⟨_, rfl, fun p hp => by cases hp⟩
  · split at h
    · cases h
    · split at h
      · cases h
        exact ⟨_, rfl, fun p hp => by cases hp⟩
      · split at h
        · cases h
          exact ⟨_, rfl, fun p hp => by cases hp⟩
        · cases h
          exact ⟨_, rfl, fun p hp => by cases hp⟩
  · split at h
    · cases h
    · split at h
      · cases h
        exact ⟨_, rfl, fun p hp => by cases hp⟩
      · cases h
        exact ⟨r, hr, fun p hp => hp⟩
  · cases h
    exact ⟨r, hr, fun p hp => hp⟩
  · obtain ⟨s, hs, rfl⟩ := Option.map_eq_some_iff.1 h
    exact ⟨_, rfl, Threads.mainStep_rest hs⟩

/-- The other threads, on the file that the writer has open. -/
theorem Running.step_other {r r' : Running} {move : Threads.Move} {d d' : Disk} (hmove : move ≠ .main)
    (h : r.step K move d = some (d', r')) :
    r'.state.main = r.state.main ∧ r'.state.reader = r.state.reader := by
  unfold Running.step at h
  split at h
  · obtain ⟨s, hs, heq⟩ := Option.map_eq_some_iff.1 h
    cases heq
    exact Threads.step_other hmove hs
  · rename_i hwriter
    obtain ⟨s, hs, heq⟩ := Option.map_eq_some_iff.1 h
    cases heq
    obtain ⟨hmain, hreader⟩ := Threads.step_other hmove hs
    unfold Threads.State.withBytes at hmain hreader
    rw [hwriter] at hmain hreader
    exact ⟨hmain, hreader⟩

/-! ## The copy from its opening on -/

variable (K) in
/-- The archive on the disk `d` loads. -/
def AppendTask.Loads (task : AppendTask) (d : Disk) (structs : FileStructs) : Prop :=
  ∃ bytes, d.read task.archive = some bytes ∧ loadArchive K task bytes = .ok structs

/-- The file `o` was opened as the copy, and no name has changed since. -/
structure Held (task : AppendTask) (d₀ d : Disk) (c : AppendCall) (o : Nat) : Prop where
  path : task.loc c.tmp = task.copy
  created : ∃ d₁, Disk.Created d₀ task.copy o d₁ ∧ d.entry = d₁.entry
  file : ∀ r, c.threads = some r → r.file = o

/-- Before the threads are started: the archive is the file `src`, which is empty if it is the copy. -/
structure Filling (task : AppendTask) (d₀ d : Disk) (c : AppendCall) (src o : Nat) : Prop
    extends Held task d₀ d c o where
  threads : c.threads = none
  archive : d₀.opens task.archive = some src
  content : d.content src = if src = o then some [] else d₀.content src

variable (K) in
/-- Where the copy is, and which paths the main thread has left, in a call on the disk `d₀`. -/
def AppendCall.Copying (task : AppendTask) (d₀ d : Disk) (c : AppendCall) : Prop :=
  match c.stage with
  | .start => d = d₀ ∧ c.threads = none
  | .copy => d = d₀ ∧ c.threads = none ∧ task.loc c.tmp = task.copy
  | .copying src o _ => Filling task d₀ d c src o
  | .openTmp => ∃ src o, Filling task d₀ d c src o
  | .openArchive o => ∃ src, Filling task d₀ d c src o
  | .load o src => Filling task d₀ d c src o
  | .scan => ∃ o r structs, Held task d₀ d c o ∧ c.threads = some r ∧ task.Loads K d₀ structs ∧
      r.state.reader.files = structs.index.files
  | .read => ∃ o r structs root queue, Held task d₀ d c o ∧ c.threads = some r ∧ task.Loads K d₀ structs ∧
      queueAppend task.setup structs.index.files task.args.fileToAppend = .ok (root, queue) ∧
      ∀ p ∈ r.state.main.rest, p ∈ queue
  | .rename | .cleanup _ | .returned _ | .panicked _ => True

section

variable {task : AppendTask} {d₀ d d' : Disk} {c c' : AppendCall} {src o : Nat}

theorem Held.opens_copy (h : Held task d₀ d c o) : d.opens task.copy = some o := by
  obtain ⟨d₁, hcreated, hentry⟩ := h.created
  rw [Disk.opens_of_entry hentry]
  exact hcreated.opens

/-- The archive is opened as before: its names are there, and those stay. -/
theorem Filling.opens_archive (h : Filling task d₀ d c src o) : d.opens task.archive = some src := by
  obtain ⟨d₁, hcreated, hentry⟩ := h.created
  rw [Disk.opens_of_entry hentry, ← h.archive]
  exact Disk.opens_of_chain fun m hm => hcreated.keeps (Disk.entry_of_chain h.archive hm)

/-- An empty file is no archive. -/
theorem loadArchive_nil (task : AppendTask) (structs : FileStructs) : loadArchive K task [] ≠ .ok structs := by
  intro h
  obtain ⟨s, hload, _⟩ := Except.bind_eq_ok.1 h
  obtain ⟨size, _, hsize, _⟩ := retrieveHeader_ok.1 (retrieve_ok.1 hload).1
  cases hsize

/-- **The archive that is loaded** is the one that was there. -/
theorem Filling.loads (h : Filling task d₀ d c src o) {structs : FileStructs}
    (hload : loadArchive K task ((d.content src).getD []) = .ok structs) : task.Loads K d₀ structs := by
  rw [h.content] at hload
  split at hload
  · exact absurd hload (loadArchive_nil task structs)
  · obtain ⟨bytes, hbytes⟩ := Option.ne_none_iff_exists'.1 (Disk.content_of_opens h.archive)
    rw [hbytes] at hload
    refine ⟨bytes, ?_, hload⟩
    unfold Disk.read
    rw [h.archive]
    exact hbytes

theorem Held.of_call (h : Held task d₀ d c o) (htmp : c'.tmp = c.tmp) (hfile : ∀ r, c'.threads = some r → r.file = o) :
    Held task d₀ d c' o := ⟨htmp ▸ h.path, h.created, hfile⟩

theorem Filling.of_call (h : Filling task d₀ d c src o) (htmp : c'.tmp = c.tmp) (hthreads : c'.threads = none) :
    Filling task d₀ d c' src o :=
  { h.toHeld.of_call htmp (fun r hr => by rw [hthreads] at hr; cases hr) with
    threads := hthreads
    archive := h.archive
    content := h.content }

/-- The copy is made, or emptied. -/
theorem Filling.of_create {d₁ : Disk} (hpath : task.loc c.tmp = task.copy) (hthreads : c.threads = none)
    (harchive : d₀.opens task.archive = some src) (hcreated : Disk.Created d₀ task.copy o d₁) :
    Filling task d₀ d₁ c src o where
  path := hpath
  created := ⟨d₁, hcreated, rfl⟩
  file r hr := by
    rw [hthreads] at hr
    cases hr
  threads := hthreads
  archive := harchive
  content := by
    split
    · rename_i heq
      rw [heq]
      exact hcreated.empty
    · rename_i hne
      exact hcreated.other src hne

/-- A step of the loop over the paths leaves the copy, and takes the paths from the queue. -/
theorem copying_read {r : Running} (h : AppendCall.Copying K task d₀ d c) (hstage : c.stage = .read)
    (hr : c.threads = some r) (hread : readStep c r = some c') : AppendCall.Copying K task d₀ d c' := by
  unfold AppendCall.Copying at h
  rw [hstage] at h
  obtain ⟨o, r₀, structs, root, queue, hheld, hr₀, hloads, hqueue, hrest⟩ := h
  obtain rfl : r = r₀ := Option.some.inj (hr.symm.trans hr₀)
  obtain ⟨htmp, ⟨r₁, hr₁, hfile⟩, hstage'⟩ := readStep_cases hr hread
  obtain ⟨r', hr', hrest'⟩ := readStep_rest hr hread
  obtain rfl : r₁ = r' := Option.some.inj (hr₁.symm.trans hr')
  have hheld' : Held task d₀ d c' o := hheld.of_call htmp fun r₂ hr₂ => by
    rw [hr'] at hr₂
    cases hr₂
    rw [hfile]
    exact hheld.file r hr
  unfold AppendCall.Copying
  rcases hstage' with hstage' | ⟨e, hstage'⟩ | hstage' | ⟨message, hstage'⟩
  · rw [hstage', hstage]
    exact ⟨o, r₁, structs, root, queue, hheld', hr', hloads, hqueue, fun p hp => hrest p (hrest' p hp)⟩
  · rw [hstage']
    trivial
  · rw [hstage']
    trivial
  · rw [hstage']
    trivial

/-- The main thread. -/
theorem copying_main (h : AppendCall.Copying K task d₀ d c) (hstep : appendStep K task d c = some (d', c')) :
    AppendCall.Copying K task d₀ d' c' := by
  cases mainStep_of_appendStep hstep with
  | unnamed _ | unread _ | uncreated _ | tmpMissing _ | archiveMissing _ | rejected _ | unqueued _ | unrenamed _
  | renamed _ | cleaned => trivial
  | named htmp =>
    obtain ⟨rfl, hthreads⟩ := h
    exact ⟨rfl, hthreads, (AppendTask.copy_ne htmp).1⟩
  | created hsrc hcreate =>
    obtain ⟨rfl, hthreads, hpath⟩ := h
    dsimp only at hpath hthreads
    rw [hpath] at hcreate
    exact Filling.of_create hpath hthreads hsrc (Disk.create_ok hcreate)
  | copied _ => exact ⟨_, _, Filling.of_call h rfl h.threads⟩
  | tmpOpened hopen =>
    obtain ⟨src, o, h⟩ := h
    have hpath : task.loc _ = task.copy := h.path
    rw [hpath, h.opens_copy] at hopen
    cases hopen
    exact ⟨src, h.of_call rfl h.threads⟩
  | archiveOpened hopen =>
    obtain ⟨src, h⟩ := h
    rw [h.opens_archive] at hopen
    cases hopen
    exact h.of_call rfl h.threads
  | loaded hload =>
    refine ⟨_, _, _, h.toHeld.of_call rfl fun r hr => ?_, rfl, Filling.loads h hload, rfl⟩
    cases hr
    rfl
  | queued hqueue =>
    obtain ⟨o, r, structs, hheld, hr, hloads, hfiles⟩ := h
    have hfile := hheld.file r hr
    cases hr
    refine ⟨o, _, structs, _, _, hheld.of_call rfl fun r' hr' => ?_, rfl, hloads, hfiles ▸ hqueue, fun p hp => hp⟩
    cases hr'
    exact hfile
  | read hread => exact copying_read h rfl rfl hread

/-- A piece of the copy is written to the copy. -/
theorem copying_copied {n : Nat} (h : AppendCall.Copying K task d₀ d c) (hstep : copyStep n d c = some (d', c')) :
    AppendCall.Copying K task d₀ d' c' := by
  obtain ⟨stage, tmp, threads⟩ := c
  unfold copyStep at hstep
  split at hstep
  · rename_i src o done hstage
    obtain rfl : stage = .copying src o done := hstage
    have h : Filling task d₀ d ⟨.copying src o done, tmp, threads⟩ src o := h
    cases hstep
    obtain ⟨d₁, hcreated, hentry⟩ := h.created
    refine { path := h.path, created := ⟨d₁, hcreated, hentry⟩, file := h.file, threads := h.threads,
             archive := h.archive, content := ?_ }
    have hcontent := h.content
    by_cases heq : src = o
    · -- the archive has been emptied, so there is nothing to copy
      subst heq
      rw [if_pos rfl] at hcontent ⊢
      rw [hcontent, Disk.write_self, Option.getD_some, Bytes.slice_eq_nil (by simp), Bytes.overwrite_nil]
    · rw [if_neg heq] at hcontent ⊢
      rw [Disk.write_other heq, hcontent]
  · cases hstep

/-- A call to the operating system fails. -/
theorem copying_fail {e : Errno} (hstep : failStep task e c = some c') :
    AppendCall.Copying K task d₀ d c' := by
  unfold failStep at hstep
  split at hstep <;> cases hstep <;> trivial

/-- The pool and the writer write to the copy, and do not touch the queue. -/
theorem copying_thread {move : Threads.Move} (h : AppendCall.Copying K task d₀ d c)
    (hstep : threadStep K move d c = some (d', c')) : AppendCall.Copying K task d₀ d' c' := by
  obtain ⟨hmove, r, r', hr, rfl, hthread⟩ := threadStep_eq_some.1 hstep
  obtain ⟨hsame, hentry, _⟩ := Running.step_cases hthread
  obtain ⟨hmain, hreader⟩ := Running.step_other hmove hthread
  have hheld : ∀ {o : Nat}, Held task d₀ d c o → Held task d₀ d' { c with threads := some r' } o := by
    rintro o ⟨hpath, ⟨d₁, hcreated, hnames⟩, hfile⟩
    refine ⟨hpath, ⟨d₁, hcreated, hentry.trans hnames⟩, fun r₁ hr₁ => ?_⟩
    cases hr₁
    exact hsame.trans (hfile r hr)
  have hfilling : ∀ {src o : Nat}, ¬ Filling task d₀ d c src o := fun h => by
    rw [h.threads] at hr
    cases hr
  have hnone : c.threads ≠ none := by simp [hr]
  obtain ⟨stage, tmp, threads⟩ := c
  obtain rfl : threads = some r := hr
  cases stage with
  | start => exact absurd h.2 hnone
  | copy => exact absurd h.2.1 hnone
  | copying => exact absurd h hfilling
  | openTmp =>
    obtain ⟨src, o, h⟩ := h
    exact absurd h hfilling
  | openArchive o =>
    obtain ⟨src, h⟩ := h
    exact absurd h hfilling
  | load => exact absurd h hfilling
  | scan =>
    obtain ⟨o, r₁, structs, h, hr₁, hloads, hfiles⟩ := h
    cases hr₁
    exact ⟨o, r', structs, hheld h, rfl, hloads, by rw [hreader]; exact hfiles⟩
  | read =>
    obtain ⟨o, r₁, structs, root, queue, h, hr₁, hloads, hqueue, hrest⟩ := h
    cases hr₁
    exact ⟨o, r', structs, root, queue, hheld h, rfl, hloads, hqueue, by rw [hmain]; exact hrest⟩
  | _ => trivial

theorem copying_start (task : AppendTask) (d₀ : Disk) : AppendCall.Copying K task d₀ d₀ .start := ⟨rfl, rfl⟩

/-- **Every step keeps it.** -/
theorem copying_step {move : AppendMove} (h : AppendCall.Copying K task d₀ d c)
    (hstep : task.step K move d c = some (d', c')) : AppendCall.Copying K task d₀ d' c' := by
  cases move with
  | main => exact copying_main h hstep
  | copied n => exact copying_copied h hstep
  | fail e =>
    obtain ⟨c₁, hfail, heq⟩ := Option.map_eq_some_iff.1 hstep
    cases heq
    exact copying_fail hfail
  | thread move => exact copying_thread h hstep

/-- **Every run keeps it.** -/
theorem copying_run {moves : List AppendMove} (h : AppendCall.Copying K task d₀ d c)
    (hrun : task.run K moves d c = some (d', c')) : AppendCall.Copying K task d₀ d' c' := by
  induction moves generalizing d c with
  | nil =>
    cases hrun
    exact h
  | cons move moves ih =>
    obtain ⟨d₁, c₁, hstep, hrun⟩ := Interleave.runs_cons.1 hrun
    exact ih (copying_step h hstep) hrun

end

/-! ## Which paths are passed -/

/-- The root of the names. -/
def AppendTask.root (task : AppendTask) : Path :=
  if task.setup.isDir task.args.fileToAppend then task.args.fileToAppend
  else task.args.fileToAppend.parent.getD task.args.fileToAppend

/-- The path that goes to `read_file_to_bytes` next, and the file that the writer has open. -/
def AppendCall.passes (c : AppendCall) : Option (Path × Nat) :=
  match c.stage, c.threads with
  | .read, some r =>
    match r.state.outbox, r.state.main with
    | [], .next (p :: _) => some (p, r.file)
    | _, _ => none
  | _, _ => none

theorem AppendCall.passes_ok {c : AppendCall} {p : Path} {o : Nat} (h : c.passes = some (p, o)) :
    c.stage = .read ∧ ∃ r, c.threads = some r ∧ r.file = o ∧ p ∈ r.state.main.rest := by
  unfold AppendCall.passes at h
  split at h
  · rename_i r hstage hr
    split at h
    · rename_i hmain
      cases h
      exact ⟨hstage, r, hr, rfl, by rw [hmain]; exact List.mem_cons_self⟩
    · cases h
  · cases h

/-- A path stands for the file `o`: it is the one to append, which leads to `loc`, or below it. -/
def AppendTask.Denotes (task : AppendTask) (loc : Loc) (d : Disk) (p : Path) (o : Nat) : Prop :=
  ∃ ns, p = task.args.fileToAppend ++ Path.ofNames ns ∧ d.entry (loc ++ ns) = some (.file o)

variable (K) in
/-- The names of the copy are aside of what is appended, except for paths that the archive has. -/
def Aside (task : AppendTask) (loc : Loc) (d₀ : Disk) : Prop :=
  ∀ structs ns, task.Loads K d₀ structs → loc ++ ns ∈ d₀.names task.copy →
    task.setup.isDir task.args.fileToAppend = true ∨ ns = [] →
    ∃ rel ∈ structs.index.files.map FileEntry.path,
      (task.args.fileToAppend ++ Path.ofNames ns).stripPrefix task.root = some rel

def Entry.node : Entry → TreeNode
  | .file _ => .file
  | .dir => .dir
  | .link t => .symlink (Path.ofLoc t)

/-- The call is shown the disk, below `loc`. -/
def AppendTask.Looks (task : AppendTask) (loc : Loc) (d : Disk) : Prop :=
  ∃ x, Shows task.setup task.args.fileToAppend x ∧
    ∀ t, x = some t → ∀ ns, t.node ns = (d.entry (loc ++ ns)).map Entry.node

section

variable {task : AppendTask} {loc : Loc} {d₀ d : Disk} {c : AppendCall} {o : Nat} {root : Path} {queue : List Path}
  {files : List FileEntry}

theorem AppendTask.queueAppend_root
    (h : queueAppend task.setup files task.args.fileToAppend = .ok (root, queue)) :
    root = task.root ∧ ∃ paths, queue = retainNew task.root (files.map FileEntry.path) paths ∧
      (task.setup.isDir task.args.fileToAppend = false → paths = [task.args.fileToAppend]) := by
  unfold queueAppend at h
  unfold AppendTask.root
  split at h
  · rename_i hdir
    obtain ⟨paths, _, h⟩ := Except.bind_eq_ok.1 h
    cases h
    rw [if_pos hdir]
    exact ⟨rfl, paths, rfl, fun hfile => by rw [hdir] at hfile; cases hfile⟩
  · rename_i hfile
    cases h
    rw [if_neg hfile]
    exact ⟨rfl, _, rfl, fun _ => rfl⟩

/-- The names of the copy are those that it had, or was to get, before the call. -/
theorem Held.denotes (h : Held task d₀ d c o) (p : Path) : task.Denotes loc d p o ↔
    ∃ ns, p = task.args.fileToAppend ++ Path.ofNames ns ∧ loc ++ ns ∈ d₀.names task.copy := by
  obtain ⟨d₁, hcreated, hentry⟩ := h.created
  refine exists_congr fun ns => and_congr_right fun _ => ?_
  rw [hentry]
  exact hcreated.names (loc ++ ns)

theorem AppendTask.Loads.unique {structs structs' : FileStructs} (h : task.Loads K d₀ structs)
    (h' : task.Loads K d₀ structs') : structs = structs' := by
  obtain ⟨bytes, hread, hload⟩ := h
  obtain ⟨bytes', hread', hload'⟩ := h'
  cases hread.symm.trans hread'
  exact Except.ok.inj (hload.symm.trans hload')

/-- A path in the queue that stands for the copy is where the scan should not find one. -/
theorem Aside.notMem (haside : Aside K task loc d₀) (h : Held task d₀ d c o) {structs : FileStructs}
    (hloads : task.Loads K d₀ structs)
    (hqueue : queueAppend task.setup structs.index.files task.args.fileToAppend = .ok (root, queue)) {p : Path}
    (hp : p ∈ queue) : ¬ task.Denotes loc d p o := by
  rw [h.denotes]
  rintro ⟨ns, rfl, hname⟩
  obtain ⟨_, paths, rfl, hfile⟩ := AppendTask.queueAppend_root hqueue
  obtain ⟨hmem, hnew⟩ := mem_retainNew.1 hp
  have hplace : task.setup.isDir task.args.fileToAppend = true ∨ ns = [] := by
    cases hdir : task.setup.isDir task.args.fileToAppend with
    | true => exact .inl rfl
    | false =>
      rw [hfile hdir, List.mem_singleton] at hmem
      refine .inr ?_
      simpa [Path.ofNames] using hmem
  obtain ⟨rel, hrel, hstrip⟩ := haside structs ns hloads hname hplace
  exact hnew rel hstrip hrel

/-- Where a name of the copy is in the way, the scan finds it. -/
theorem exists_denotes (h : Held task d₀ d c o) (hlooks : task.Looks loc d) {structs : FileStructs}
    (hqueue : queueAppend task.setup structs.index.files task.args.fileToAppend = .ok (root, queue)) {ns : List String}
    (hname : loc ++ ns ∈ d₀.names task.copy) (hplace : task.setup.isDir task.args.fileToAppend = true ∨ ns = [])
    (hnew : ¬ ∃ rel ∈ structs.index.files.map FileEntry.path,
      (task.args.fileToAppend ++ Path.ofNames ns).stripPrefix task.root = some rel) :
    ∃ p ∈ queue, task.Denotes loc d p o := by
  obtain ⟨x, hshows, hnode⟩ := hlooks
  have hdenotes : task.Denotes loc d (task.args.fileToAppend ++ Path.ofNames ns) o :=
    (h.denotes _).2 ⟨ns, rfl, hname⟩
  refine ⟨_, ?_, hdenotes⟩
  obtain ⟨rfl, _⟩ := AppendTask.queueAppend_root hqueue
  obtain ⟨paths, hroot, rfl, hpaths⟩ := queueAppend_shows hshows hqueue
  rw [← hroot]
  refine mem_retainNew.2 ⟨(hpaths _).2 ?_, fun rel hstrip hrel => hnew ⟨rel, hrel, hstrip⟩⟩
  cases hshows with
  | file hfile =>
    obtain rfl := hplace.resolve_left (by simp [hfile])
    simp [Wanted, Path.ofNames]
  | @dir t dirs hdir hshown hfinds =>
    -- the name is that of a file in the tree, and not the root
    obtain ⟨ns', heq, hfile⟩ := hdenotes
    obtain rfl := append_ofNames_inj.1 heq
    have hx : t.node ns = some .file := by
      rw [hnode t rfl ns, hfile]
      rfl
    refine ⟨ns, .file, ?_, rfl, hx, by simp⟩
    rintro rfl
    cases t.root.symm.trans hx

/-- **When an append reads its own copy.** While the names of the copy are aside of what is appended, no call passes a
path that stands for it to the reader, in any schedule; otherwise it is in the queue. -/
theorem own_copy_iff : (Aside K task loc d₀ → ∀ moves d c p o, task.run K moves d₀ .start = some (d, c) →
      c.passes = some (p, o) → ¬ task.Denotes loc d p o) ∧
    ∀ moves d c r root queue, task.run K moves d₀ .start = some (d, c) → c.stage = .scan → c.threads = some r →
      task.Looks loc d → queueAppend task.setup r.state.reader.files task.args.fileToAppend = .ok (root, queue) →
      ((∃ p ∈ queue, task.Denotes loc d p r.file) ↔ ¬ Aside K task loc d₀) := by
  refine ⟨fun haside moves d c p o hrun hpasses => ?_, fun moves d c r root queue hrun hstage hr hlooks hqueue => ?_⟩
  · have hinv := copying_run (copying_start task d₀) hrun
    obtain ⟨hstage, r, hr, rfl, hp⟩ := AppendCall.passes_ok hpasses
    unfold AppendCall.Copying at hinv
    rw [hstage] at hinv
    obtain ⟨o, r', structs, root, queue, hheld, hr', hloads, hqueue, hrest⟩ := hinv
    obtain rfl : r' = r := Option.some.inj (hr'.symm.trans hr)
    rw [hheld.file r' hr]
    exact haside.notMem hheld hloads hqueue (hrest p hp)
  · have hinv := copying_run (copying_start task d₀) hrun
    unfold AppendCall.Copying at hinv
    rw [hstage] at hinv
    obtain ⟨o, r', structs, hheld, hr', hloads, hfiles⟩ := hinv
    obtain rfl : r' = r := Option.some.inj (hr'.symm.trans hr)
    rw [hfiles] at hqueue
    rw [hheld.file r' hr]
    constructor
    · rintro ⟨p, hp, hdenotes⟩ haside
      exact haside.notMem hheld hloads hqueue hp hdenotes
    · intro haside
      unfold Aside at haside
      push Not at haside
      obtain ⟨structs', ns, hloads', hname, hplace, hnew⟩ := haside
      obtain rfl := hloads.unique hloads'
      refine exists_denotes hheld hlooks hqueue hname hplace ?_
      rintro ⟨rel, hrel, hstrip⟩
      exact hnew rel hrel hstrip

end

/-! ## Beside and inside -/

/-- The directory `src` is appended to an archive beside it. -/
theorem own_copy_iff_beside :
    let K := Crates.tabled [Header.stored 2] [indexOfA]
    let d₀ := Disk.ofFiles [(["a.cryo"], storedA), (["src", "b"], [4, 5])]
    ∃ (moves : List AppendMove) (d : Disk) (c : AppendCall), AppendTask.two.run K moves d₀ .start = some (d, c) ∧
      c.passes = some ([.normal "src", .normal "b"], 7) ∧
      ¬ AppendTask.two.Denotes ["src"] d [.normal "src", .normal "b"] 7 := by
  intro K d₀
  have hpasses : (AppendTask.two.run K [.main, .main, .copied 1000, .main, .main, .main, .main, .main] d₀ .start).map
      (fun r => r.2.passes) = some (some ([.normal "src", .normal "b"], 7)) := by decide +kernel
  obtain ⟨⟨d, c⟩, hrun, hpasses⟩ := Option.map_eq_some_iff.1 hpasses
  have hcopy : AppendTask.two.copy = ["a.tmp"] := by decide +kernel
  have hfree : d₀.entry ["a.tmp"] = none := by decide +kernel
  refine ⟨_, d, c, hrun, hpasses, own_copy_iff.1 (fun structs ns _ hname _ => ?_) _ d c _ _ hrun hpasses⟩
  rw [hcopy] at hname
  rcases hname with ⟨i, hopens, _⟩ | ⟨hfollow, _⟩
  · rw [Disk.opens_of_ne_link (by simp [hfree]), hfree] at hopens
    cases hopens
  · rw [Disk.follow_of_ne_link (by simp [hfree])] at hfollow
    simp at hfollow

/-- The append of the directory `src` to the archive `src/a.cryo`. -/
def AppendTask.whole : AppendTask where
  dir := ["src"]
  fresh := 7
  setup := AppendSetup.plain [[.normal "src", .normal "a.cryo"], [.normal "src", .normal "a.tmp"]]
  env := Env.plain (Os.ofFiles [([.normal "src", .normal "a.cryo"], storedA.length, storedA)])
  args := { AppendArgs.plain with archivePath := [.normal "src", .normal "a.cryo"] }

/-- The directory `src` with the archive. -/
def wholeDisk : Disk where
  entry l := if l = ["src"] then some .dir else if l = ["src", "a.cryo"] then some (.file 0) else none
  content i := if i = 0 then some storedA else none
  held {l i} h := by
    split at h
    · cases h
    · split at h
      · cases h
        simp
      · cases h

/-- The directory `src` when it is scanned. -/
def wholeNodes : List (List String × TreeNode) := [([], .dir), (["a.tmp"], .file), (["a.cryo"], .file)]

/-- The copy is there when the directory is scanned. -/
theorem whole_looks {moves : List AppendMove} {d : Disk} {c : AppendCall}
    (hrun : AppendTask.whole.run K moves wholeDisk .start = some (d, c)) (hstage : c.stage = .scan) :
    AppendTask.whole.Looks ["src"] d := by
  have hinv : AppendCall.Copying K AppendTask.whole wholeDisk d c := copying_run (copying_start _ _) hrun
  unfold AppendCall.Copying at hinv
  rw [hstage] at hinv
  obtain ⟨o, _, _, ⟨_, ⟨d₁, hcreated, hentry⟩, _⟩, _⟩ := hinv
  have hcopy : AppendTask.whole.copy = ["src", "a.tmp"] := by decide +kernel
  have hfree : wholeDisk.entry ["src", "a.tmp"] = none := by decide
  rw [hcopy] at hcreated
  have hfollow : wholeDisk.follow FS.maxLinks ["src", "a.tmp"] = some ["src", "a.tmp"] :=
    Disk.follow_of_ne_link (by simp [hfree]) _
  have hnames : ∀ x, x ∈ wholeDisk.names ["src", "a.tmp"] ↔ x = ["src", "a.tmp"] := by
    intro x
    constructor
    · rintro (⟨i, hopens, _⟩ | ⟨hx, _⟩)
      · rw [Disk.opens_of_ne_link (by simp [hfree]), hfree] at hopens
        cases hopens
      · exact (Option.some.inj (hfollow.symm.trans hx)).symm
    · rintro rfl
      exact .inr ⟨hfollow, hfree⟩
  refine ⟨some (.ofList wholeNodes (by decide) (by decide)), .dir rfl (shown_ofList (by decide) (by decide) (by decide))
    (fun files hfiles => by cases hfiles; exact ⟨1, by decide +kernel⟩), fun t ht ns => ?_⟩
  cases ht
  show wholeNodes.lookup ns = _
  rw [hentry]
  by_cases hns : ns = ["a.tmp"]
  · subst hns
    have hmade : d₁.entry ["src", "a.tmp"] = some (.file o) := (hcreated.names _).2 ((hnames _).2 rfl)
    show some _ = (d₁.entry ["src", "a.tmp"]).map _
    rw [hmade]
    rfl
  · have hother : d₁.entry (["src"] ++ ns) = wholeDisk.entry (["src"] ++ ns) :=
      hcreated.entry_of_notMem fun hx => hns (by simpa using (hnames _).1 hx)
    rw [hother]
    by_cases hroot : ns = []
    · subst hroot
      rfl
    · by_cases harchive : ns = ["a.cryo"]
      · subst harchive
        rfl
      · have hnone : wholeNodes.lookup ns = none :=
          List.lookup_eq_none_iff.2 (by simp [wholeNodes, hns, hroot, harchive])
        rw [hnone]
        simp [wholeDisk, hroot, harchive]

/-- **The copy is read while it is written**: the archive stands in the directory that is appended to it. -/
theorem copy_read :
    let K := Crates.tabled [Header.stored 2] [indexOfA]
    let task := AppendTask.whole
    (∀ moves d c, task.run K moves wholeDisk .start = some (d, c) → c.stage = .scan → task.Looks ["src"] d) ∧
    ∃ (moves : List AppendMove) (d : Disk) (c : AppendCall), task.run K moves wholeDisk .start = some (d, c) ∧
      c.passes = some ([.normal "src", .normal "a.tmp"], 7) ∧
      task.Denotes ["src"] d [.normal "src", .normal "a.tmp"] 7 := by
  intro K task
  refine ⟨fun moves d c hrun hstage => whole_looks hrun hstage, ?_⟩
  have hshown : (task.run K ([.main, .main, .copied 1000] ++ List.replicate 43 .main) wholeDisk .start).map
      (fun r => (r.2.passes, r.1.entry ["src", "a.tmp"])) =
      some (some ([.normal "src", .normal "a.tmp"], 7), some (.file 7)) := by decide +kernel
  obtain ⟨⟨d, c⟩, hrun, hshown⟩ := Option.map_eq_some_iff.1 hshown
  obtain ⟨hpasses, hentry⟩ := Prod.mk.inj hshown
  exact ⟨_, d, c, hrun, hpasses, ["a.tmp"], rfl, hentry⟩

end Cryo
