import Cryo.Compress
import Cryo.Loader

/-!
# Appending

`append_file` of `append.rs`, on the bytes of the archive: they are loaded with the default limits, the paths that are
already in the archive are dropped, and the run continues where the index was: stream position, file position, block
number and expected number are those of the loaded archive, the pending buffer starts empty. The copy that is written
to, and its renaming, are not part of it.

A successful append is a `Run` on the writer it opens (`appendFile_ok`).
-/

namespace Cryo

open Posix

variable (K : Crates)

structure AppendArgs where
  archivePath : Path
  fileToAppend : Path
  confirm : Bool

/-- What an append asks of its surroundings: whether a path is a directory, the scan of one, the password, and which
calls on the copy fail. -/
structure AppendSetup where
  isDir : Path → Bool
  retrieveAllFiles : Path → Result (List Path)
  prompts : Prompts
  faults : Nat → Option Nat

/-- The paths whose name below the root is new, in the archive and among themselves. -/
def retainNew (root : Path) : List Path → List Path → List Path
  | _, [] => []
  | seen, p :: ps =>
    match p.stripPrefix root with
    | some stripped => if stripped ∈ seen then retainNew root seen ps else p :: retainNew root (stripped :: seen) ps
    | none => p :: retainNew root seen ps

/-- **What is retained**: the paths whose name is new. -/
theorem mem_retainNew {root p : Path} : ∀ {paths seen : List Path}, p ∈ retainNew root seen paths ↔
    p ∈ paths ∧ ∀ rel, p.stripPrefix root = some rel → rel ∉ seen
  | [], seen => by simp [retainNew]
  | q :: paths, seen => by
    unfold retainNew
    cases hstrip : q.stripPrefix root with
    | none =>
      dsimp only
      rw [List.mem_cons, List.mem_cons, mem_retainNew]
      constructor
      · rintro (rfl | ⟨hmem, hnew⟩)
        · exact ⟨.inl rfl, fun rel hrel => by rw [hstrip] at hrel; cases hrel⟩
        · exact ⟨.inr hmem, hnew⟩
      · rintro ⟨rfl | hmem, hnew⟩
        · exact .inl rfl
        · exact .inr ⟨hmem, hnew⟩
    | some rel =>
      dsimp only
      split
      · rename_i hseen
        rw [List.mem_cons, mem_retainNew]
        constructor
        · exact fun ⟨hmem, hnew⟩ => ⟨.inr hmem, hnew⟩
        · rintro ⟨rfl | hmem, hnew⟩
          · exact absurd hseen (hnew rel hstrip)
          · exact ⟨hmem, hnew⟩
      · rename_i hnew
        rw [List.mem_cons, List.mem_cons, mem_retainNew]
        constructor
        · rintro (rfl | ⟨hmem, hnew'⟩)
          · exact ⟨.inl rfl, fun rel' hrel' => by
              rw [hstrip] at hrel'
              cases hrel'
              exact hnew⟩
          · exact ⟨.inr hmem, fun rel' hrel' hs => hnew' rel' hrel' (List.mem_cons_of_mem _ hs)⟩
        · rintro ⟨hmem, hnew'⟩
          by_cases hpq : p = q
          · exact .inl hpq
          · refine .inr ⟨hmem.resolve_left hpq, fun rel' hrel' hs => ?_⟩
            rcases List.mem_cons.1 hs with rfl | hs
            · -- two paths with one name below the root are one path
              exact hpq ((Path.eq_of_stripPrefix hrel').trans (Path.eq_of_stripPrefix hstrip).symm)
            · exact hnew' rel' hrel' hs

/-- The root and the paths to append. -/
def queueAppend (setup : AppendSetup) (files : List FileEntry) (fileToAppend : Path) : Result (Path × List Path) :=
  if setup.isDir fileToAppend then do
    let paths ← setup.retrieveAllFiles fileToAppend
    .ok (fileToAppend, retainNew fileToAppend (files.map FileEntry.path) paths)
  else
    let root := fileToAppend.parent.getD fileToAppend
    .ok (root, retainNew root (files.map FileEntry.path) [fileToAppend])

/-- The writer that continues a loaded archive. -/
def FileStructs.reopen (structs : FileStructs) (bytes : Bytes) (faults : Nat → Option Nat) : ArchiveWriter where
  writer := { bytes := bytes, pos := structs.footer.indexOffset, faults := faults, calls := 0 }
  index := structs.index
  streamPosition := structs.index.totalStreamSize
  filePosition := structs.footer.indexOffset
  cipher := structs.cipher
  header := structs.header

/-- From the loop over the paths on. A failed read ends the call at once. -/
def appendFiles (env : Env) (arch : ArchiveWriter) (root : Path) (queue : List Path) : Except Halt ArchiveWriter :=
  match readFiles env.os root arch.header.blockSize queue
      (.resume arch.index.files arch.index.totalStreamSize arch.index.block.length) with
  | (.error e, _) => .error e
  | (.ok (), s) => runThreads K env arch s.produced (.ok ()) s.files s.streamPosition

def appendFile (setup : AppendSetup) (env : Env) (bytes : Bytes) (args : AppendArgs) : Except Halt ArchiveWriter := do
  let structs ← (retrieve K bytes args.archivePath Limits.default setup.prompts args.confirm).mapError .err
  (ioFailed args.archivePath (seekStart structs.footer.indexOffset)).mapError .err
  let queued ← (queueAppend setup structs.index.files args.fileToAppend).mapError .err
  appendFiles K env (structs.reopen bytes setup.faults) queued.1 queued.2

variable {K}

/-- **A successful append is a run** on the reopened archive. -/
theorem appendFile_ok {setup : AppendSetup} {env : Env} {bytes : Bytes} {args : AppendArgs} {arch' : ArchiveWriter}
    (h : appendFile K setup env bytes args = .ok arch') :
    ∃ structs root queue srcs processed,
      retrieve K bytes args.archivePath Limits.default setup.prompts args.confirm = .ok structs ∧
      queueAppend setup structs.index.files args.fileToAppend = .ok (root, queue) ∧
      List.Forall₂ (fun p src => observe env.os root structs.header.blockSize p = .ok src) queue srcs ∧
      Run K env.draws (structs.reopen bytes setup.faults) structs.index.files structs.index.totalStreamSize
        structs.header.blockSize srcs processed arch' := by
  obtain ⟨structs, hload, h⟩ := Except.bind_eq_ok.1 h
  obtain ⟨_, _, h⟩ := Except.bind_eq_ok.1 h
  obtain ⟨⟨root, queue⟩, hqueue, h⟩ := Except.bind_eq_ok.1 h
  have hload := Except.mapError_eq_ok.1 hload
  have hqueue := Except.mapError_eq_ok.1 hqueue
  unfold appendFiles at h
  split at h
  · cases h
  · rename_i s hread
    obtain ⟨srcs, hobs, hs⟩ := readFiles_ok (ReadState.resume_short _ _ _ _) hread
    obtain ⟨processed, hrun⟩ := (runThreads_ok_iff (feedable_of_observe hobs) hs).1 h
    exact ⟨structs, root, queue, srcs, processed, hload, hqueue, hobs, hrun⟩

/-- A directory with `files`, and a copy that can be written. -/
def AppendSetup.plain (files : List Path) : AppendSetup where
  isDir _ := true
  retrieveAllFiles _ := .ok files
  prompts := ⟨none, none⟩
  faults _ := none

def AppendArgs.plain : AppendArgs where
  archivePath := [.normal "a.cryo"]
  fileToAppend := [.normal "src"]
  confirm := false

end Cryo
