import Cryo.Lib.Act
import Cryo.Lib.FileSystem
import Cryo.Lib.Modes

/-!
# File system calls that may fail

`World` is a file system seen by one process: the tree, the working directory, a plan of which calls fail, and a log
of every change made so far, so that a statement about "at every moment" is one about the log. A change puts a node at
a location. A failing write may have written a part of its data.

The calls are those of a standard library: `mkdir` and `symlink` do not follow a link in the last place, `createFile`
(create or truncate), `setPermissions` and `canonicalize` do; an open file is known by its location. `createDirAll`
creates the missing directories of a path from the top (`createDirAll_unfold`).

Modes change as a `Process` may change them: a new directory inherits the set-group-ID bit (`World.dirMode`), and a
write takes the set-ID bits of a file (`Process.written`) that setting its permissions had given (`Process.granted`).
-/

namespace Posix

/-- From now on `node` stands at `loc`. -/
structure Change where
  loc : Loc
  node : Option Node
  deriving DecidableEq

structure World where
  fs : FS
  cwd : Loc
  process : Process
  now : Int
  /-- The calls that fail, by number, and how many bytes such a write still writes. -/
  faults : Nat → Option Nat
  calls : Nat
  log : List Change

/-- A reliable world of these directories, seen from the root. -/
def World.ofDirs (dirs : List Loc) : World where
  fs l := if l ∈ dirs then some (.dir 0o755) else none
  cwd := []
  process := ⟨0o022, false, true⟩
  now := 0
  faults _ := none
  calls := 0
  log := []

abbrev OsM := Act World Errno

namespace World

/-- One more call was made. -/
def tick (w : World) : World := { w with calls := w.calls + 1 }

/-- `node` is put at `l`. -/
def emit (w : World) (l : Loc) (node : Option Node) : World :=
  { w with fs := Function.update w.fs l node, log := w.log ++ [⟨l, node⟩] }

/-- No call fails for a reason of its own. -/
def Reliable (w : World) : Prop := ∀ n, w.faults n = none

@[simp] theorem tick_fs (w : World) : w.tick.fs = w.fs := rfl
@[simp] theorem tick_cwd (w : World) : w.tick.cwd = w.cwd := rfl
@[simp] theorem tick_log (w : World) : w.tick.log = w.log := rfl
@[simp] theorem tick_faults (w : World) : w.tick.faults = w.faults := rfl
@[simp] theorem tick_process (w : World) : w.tick.process = w.process := rfl
@[simp] theorem tick_now (w : World) : w.tick.now = w.now := rfl
@[simp] theorem emit_fs (w : World) (l : Loc) (n : Option Node) : (w.emit l n).fs = Function.update w.fs l n := rfl
@[simp] theorem emit_cwd (w : World) (l : Loc) (n : Option Node) : (w.emit l n).cwd = w.cwd := rfl
@[simp] theorem emit_log (w : World) (l : Loc) (n : Option Node) : (w.emit l n).log = w.log ++ [⟨l, n⟩] := rfl
@[simp] theorem emit_faults (w : World) (l : Loc) (n : Option Node) : (w.emit l n).faults = w.faults := rfl

theorem Reliable.tick {w : World} (h : w.Reliable) : w.tick.Reliable := h

theorem Reliable.emit {w : World} (h : w.Reliable) (l : Loc) (n : Option Node) : (w.emit l n).Reliable := h

/-- The location a path has now. -/
def resolve (w : World) (followLast : Bool) (p : Path) : Except Errno Loc := w.fs.resolve followLast w.cwd p

@[simp] theorem tick_resolve (w : World) (fl : Bool) (p : Path) : w.tick.resolve fl p = w.resolve fl p := rfl

end World

variable {α : Type}

/-- A call that does `f`, unless it is planned to fail. -/
def syscall (f : World → Except Errno α × World) : OsM α := fun w =>
  match w.faults w.calls with
  | some _ => (.error .io, w.tick)
  | none => f w.tick

/-- The set-group-ID bit of a directory, which new directories in it inherit. -/
def FS.setgid (fs : FS) (l : Loc) : Nat :=
  match fs l with
  | some (.dir m) => m &&& 0o2000
  | _ => 0

/-- The mode of a directory made in `d`. -/
def World.dirMode (w : World) (d : Loc) : Nat := masked 0o777 w.process.umask ||| w.fs.setgid d

def canonicalize (p : Path) : OsM Path := syscall fun w =>
  match w.resolve true p with
  | .error e => (.error e, w)
  | .ok l =>
    match w.fs l with
    | some _ => (.ok (Path.ofLoc l), w)
    | none => (.error .noent, w)

/-- Whether the path is a directory; an error counts as no. -/
def pathIsDir (p : Path) : OsM Bool := Act.tryCatch (syscall fun w =>
    match w.resolve true p with
    | .error e => (.error e, w)
    | .ok l => (.ok (w.fs.isDir l), w))
  fun _ => pure false

/-- The content of the file that the path leads to. -/
def World.content (w : World) (p : Path) : Option Bytes :=
  match w.resolve true p with
  | .error _ => none
  | .ok l =>
    match w.fs l with
    | some (.file c _ _) => some c
    | _ => none

/-- Whether something stands where the path leads; an error counts as no. -/
def pathExists (p : Path) : OsM Bool := Act.tryCatch (syscall fun w =>
    match w.resolve true p with
    | .error e => (.error e, w)
    | .ok l => (.ok (w.fs l).isSome, w))
  fun _ => pure false

/-- Whether the path is a regular file; an error counts as no. -/
def pathIsFile (p : Path) : OsM Bool := Act.tryCatch (syscall fun w =>
    match w.resolve true p with
    | .error e => (.error e, w)
    | .ok l =>
      match w.fs l with
      | some (.file _ _ _) => (.ok true, w)
      | _ => (.ok false, w))
  fun _ => pure false

/-- A call that only looks. -/
theorem syscall_looks {α : Type} {f : World → Except Errno α × World} (hf : ∀ w, (f w).2 = w) (w : World) :
    (syscall f w).2 = w.tick := by
  unfold syscall
  split
  · rfl
  · exact hf w.tick

theorem tryCatch_looks {α ε ε' : Type} {x : Act World ε α} {b : α} {w : World} (hx : (x w).2 = w.tick) :
    (Act.tryCatch x (fun _ => (pure b : Act World ε' α)) w).2 = w.tick := by
  unfold Act.tryCatch
  revert hx
  cases x w with
  | mk r w' => cases r <;> exact id

theorem pathExists_looks (p : Path) (w : World) : (pathExists p w).2 = w.tick :=
  tryCatch_looks (syscall_looks (fun w => by split <;> rfl) w)

theorem pathIsDir_looks (p : Path) (w : World) : (pathIsDir p w).2 = w.tick :=
  tryCatch_looks (syscall_looks (fun w => by split <;> rfl) w)

theorem pathIsFile_looks (p : Path) (w : World) : (pathIsFile p w).2 = w.tick :=
  tryCatch_looks (syscall_looks (fun w => by
    split
    · rfl
    · split <;> rfl) w)

/-- The content of a file, as it is when the file is opened. -/
def openFile (p : Path) : OsM Bytes := syscall fun w =>
  match w.resolve true p with
  | .error e => (.error e, w)
  | .ok l =>
    match w.fs l with
    | some (.file c _ _) => (.ok c, w)
    | some (.dir _) => (.error .isdir, w)
    | _ => (.error .noent, w)

def mkdir (p : Path) : OsM Unit := syscall fun w =>
  match w.resolve false p with
  | .error e => (.error e, w)
  | .ok l =>
    match w.fs l with
    | some _ => (.error .exist, w)
    | none => (.ok (), w.emit l (some (.dir (w.dirMode l.dropLast))))

def symlink (target p : Path) : OsM Unit := syscall fun w =>
  match w.resolve false p with
  | .error e => (.error e, w)
  | .ok l =>
    match w.fs l with
    | some _ => (.error .exist, w)
    | none => if target = [] then (.error .noent, w) else (.ok (), w.emit l (some (.link target)))

/-- Opens a file for writing, created if missing and emptied otherwise. -/
def createFile (p : Path) : OsM Loc := syscall fun w =>
  match w.resolve true p with
  | .error e => (.error e, w)
  | .ok l =>
    match w.fs l with
    | none => (.ok l, w.emit l (some (.file [] (masked 0o666 w.process.umask) w.now)))
    | some (.file _ m _) => (.ok l, w.emit l (some (.file [] (w.process.written m) w.now)))
    | some (.dir _) => (.error .isdir, w)
    | some (.link _) => (.error .loop, w)

/-- Appends to an open file; an error comes with the number of bytes that were written before it. -/
def writeUpTo (l : Loc) (data : Bytes) : Act World (Errno × Nat) Unit := fun w =>
  if data = [] then (.ok (), w)
  else
    match w.fs l with
    | some (.file c m _) =>
      match w.faults w.calls with
      | some k => (.error (.io, k), w.tick.emit l (some (.file (c ++ data.take k) (w.process.written m) w.now)))
      | none => (.ok (), w.tick.emit l (some (.file (c ++ data) (w.process.written m) w.now)))
    | _ => (.error (.io, 0), w.tick)

def writeAll (l : Loc) (data : Bytes) : OsM Unit := Act.mapErr Prod.fst (writeUpTo l data)

/-- Sets the permission bits; the other bits of `mode` are ignored. -/
def setPermissions (p : Path) (mode : Nat) : OsM Unit := syscall fun w =>
  match w.resolve true p with
  | .error e => (.error e, w)
  | .ok l =>
    match w.fs l with
    | some (.dir _) => (.ok (), w.emit l (some (.dir (w.process.granted mode))))
    | some (.file c _ t) => (.ok (), w.emit l (some (.file c (w.process.granted mode) t)))
    | _ => (.error .noent, w)

/-- Sets the modification time of an open file. -/
def setModified (l : Loc) (t : Int) : OsM Unit := syscall fun w =>
  match w.fs l with
  | some (.file c m _) => (.ok (), w.emit l (some (.file c m t)))
  | _ => (.error .io, w)

/-- Accepts an error when the path is a directory all the same. -/
def orIsDir (p : Path) (e : Errno) : OsM Unit := do
  if ← pathIsDir p then pure () else Act.throw e

/-- `createDirAll` on the reversed path: a missing parent is created first. -/
def createDirAllRev : List Component → OsM Unit
  | [] => pure ()
  | c :: rev => Act.tryCatch (mkdir (c :: rev).reverse) fun e =>
    if e = .noent then
      if c = .rootDir then Act.throw .io
      else do
        createDirAllRev rev
        Act.tryCatch (mkdir (c :: rev).reverse) (orIsDir (c :: rev).reverse)
    else orIsDir (c :: rev).reverse e

/-- Creates a directory and its missing parents. -/
def createDirAll (p : Path) : OsM Unit := createDirAllRev p.reverse

theorem createDirAll_nil : createDirAll [] = pure () := rfl

theorem createDirAll_unfold (p : Path) (n : String) :
    createDirAll (p ++ [.normal n]) = Act.tryCatch (mkdir (p ++ [.normal n])) fun e =>
      if e = .noent then do
        createDirAll p
        Act.tryCatch (mkdir (p ++ [.normal n])) (orIsDir (p ++ [.normal n]))
      else orIsDir (p ++ [.normal n]) e := by
  unfold createDirAll
  rw [List.reverse_append, List.reverse_singleton, List.singleton_append, createDirAllRev]
  simp

/-! ## Changes -/

/-- The changes of a log made one after another. -/
def FS.replay (fs : FS) (log : List Change) : FS := log.foldl (fun fs ch => Function.update fs ch.loc ch.node) fs

theorem FS.replay_append (fs : FS) (a b : List Change) : fs.replay (a ++ b) = (fs.replay a).replay b :=
  List.foldl_append

namespace World

/-- `w'` comes from `w` by changes that satisfy `P`. -/
structure Leads (P : Change → Prop) (w w' : World) : Prop where
  changes : ∃ new, w'.log = w.log ++ new ∧ (∀ ch ∈ new, P ch) ∧ w'.fs = w.fs.replay new
  cwd : w'.cwd = w.cwd
  process : w'.process = w.process
  faults : w'.faults = w.faults

variable {P Q : Change → Prop} {w w' w'' : World}

theorem Leads.refl (P : Change → Prop) (w : World) : Leads P w w := ⟨⟨[], by simp [FS.replay]⟩, rfl, rfl, rfl⟩

theorem Leads.tick (P : Change → Prop) (w : World) : Leads P w w.tick :=
  ⟨⟨[], by simp [FS.replay]⟩, rfl, rfl, rfl⟩

theorem Leads.emit {l : Loc} {x : Option Node} (w : World) (h : P ⟨l, x⟩) : Leads P w (w.tick.emit l x) :=
  ⟨⟨[⟨l, x⟩], by simp [h, FS.replay]⟩, rfl, rfl, rfl⟩

theorem Leads.trans (h : Leads P w w') (h' : Leads P w' w'') : Leads P w w'' := by
  obtain ⟨⟨a, ha1, ha2, ha3⟩, hc, hp, hf⟩ := h
  obtain ⟨⟨b, hb1, hb2, hb3⟩, hc', hp', hf'⟩ := h'
  refine ⟨⟨a ++ b, by rw [hb1, ha1, List.append_assoc], fun ch hch => ?_, by rw [hb3, ha3, FS.replay_append]⟩,
    hc'.trans hc, hp'.trans hp, hf'.trans hf⟩
  rcases List.mem_append.1 hch with hch | hch
  · exact ha2 ch hch
  · exact hb2 ch hch

theorem Leads.mono (h : Leads P w w') (hPQ : ∀ ch, P ch → Q ch) : Leads Q w w' := by
  obtain ⟨⟨a, ha1, ha2, ha3⟩, hc, hp, hf⟩ := h
  exact ⟨⟨a, ha1, fun ch hch => hPQ ch (ha2 ch hch), ha3⟩, hc, hp, hf⟩

theorem Leads.reliable (h : Leads P w w') (hw : w.Reliable) : w'.Reliable := by
  unfold Reliable; rw [h.faults]; exact hw

/-- A property of file systems that every change satisfying `P` keeps. -/
theorem Leads.induct {I : FS → Prop} (h : Leads P w w') (h0 : I w.fs)
    (hs : ∀ fs ch, P ch → I fs → I (Function.update fs ch.loc ch.node)) : I w'.fs := by
  obtain ⟨new, hlog, hP, hfs⟩ := h.changes
  rw [hfs]
  clear hlog hfs h
  revert h0
  generalize w.fs = fs
  induction new generalizing fs with
  | nil => exact id
  | cons ch new ih =>
    intro h0
    exact ih (fun c hc => hP c (List.mem_cons_of_mem _ hc)) _ (hs fs ch (hP ch List.mem_cons_self) h0)

/-- Where no change is made nothing changes. -/
theorem Leads.frame (h : Leads P w w') {l : Loc} (hl : ∀ ch, P ch → ch.loc ≠ l) : w'.fs l = w.fs l :=
  h.induct (I := fun fs => fs l = w.fs l) rfl
    (fun fs ch hch hfs => by rw [Function.update_of_ne (hl ch hch).symm]; exact hfs)

end World

/-- From `w` to `w'` the node at `l` became `x`, and nothing else changed. -/
structure World.Put (l : Loc) (x : Node) (w w' : World) : Prop where
  fs : w'.fs = Function.update w.fs l (some x)
  cwd : w'.cwd = w.cwd
  process : w'.process = w.process
  faults : w'.faults = w.faults

namespace World.Put

variable {w w' w'' : World} {l : Loc} {x y : Node}

theorem refl (h : w.fs l = some x) : Put l x w w := ⟨by rw [← h, Function.update_eq_self], rfl, rfl, rfl⟩

theorem emit (w : World) (l : Loc) (x : Node) : Put l x w (w.tick.emit l (some x)) := ⟨rfl, rfl, rfl, rfl⟩

theorem trans (h : Put l x w w') (h' : Put l y w' w'') : Put l y w w'' :=
  ⟨by rw [h'.fs, h.fs, Function.update_idem], h'.cwd.trans h.cwd, h'.process.trans h.process, h'.faults.trans h.faults⟩

/-- What changed at one place only. -/
theorem of_leads {P : Change → Prop} (h : w.Leads P w') (hP : ∀ ch, P ch → ch.loc = l) (hx : w'.fs l = some x) :
    Put l x w w' := by
  refine ⟨funext fun l' => ?_, h.cwd, h.process, h.faults⟩
  by_cases heq : l' = l
  · subst heq
    rw [hx, Function.update_self]
  · rw [Function.update_of_ne heq]
    exact h.frame fun ch hch hloc => heq (hloc.symm.trans (hP ch hch))

theorem at_self (h : Put l x w w') : w'.fs l = some x := by rw [h.fs, Function.update_self]

theorem at_ne (h : Put l x w w') {l' : Loc} (hne : l' ≠ l) : w'.fs l' = w.fs l' := by
  rw [h.fs, Function.update_of_ne hne]

theorem reliable (h : Put l x w w') (hw : w.Reliable) : w'.Reliable := by
  unfold Reliable
  rw [h.faults]
  exact hw

/-- What resolved still does when a node that is not a link was put where nothing stood. -/
theorem resolve (h : Put l x w w') (hl : w.fs l = none) (hx : ∀ t, x ≠ .link t) {fl : Bool} {p : Path} {l' : Loc}
    (hr : w.resolve fl p = .ok l') : w'.resolve fl p = .ok l' := by
  unfold World.resolve
  rw [h.cwd, h.fs]
  exact FS.resolve_grows (FS.grows_update (.inr ⟨hl, hx⟩)) hr

end World.Put

/-! ## What the calls do -/

/-- A call fails for its own reason only when it is planned to. -/
theorem wp_syscall (f : World → Except Errno α × World) {Q : α → World → Prop} {E : Errno → World → Prop} {w : World}
    (hf : Act.wp f Q E w.tick) (hio : ¬ w.Reliable → E .io w.tick) : Act.wp (syscall f) Q E w := by
  unfold Act.wp syscall at *
  cases hw : w.faults w.calls with
  | none => exact hf
  | some k => exact hio fun h => by rw [h] at hw; cases hw

/-- The canonical path is that of the node the path leads to; there is one when no call fails and the node exists. -/
theorem wp_canonicalize {p : Path} {Q : Path → World → Prop} {E : Errno → World → Prop} {w : World}
    (hok : ∀ l, w.resolve true p = .ok l → (w.fs l).isSome → Q (Path.ofLoc l) w.tick)
    (herr : ∀ e, ¬(w.Reliable ∧ ∃ l, w.resolve true p = .ok l ∧ (w.fs l).isSome) → E e w.tick) :
    Act.wp (canonicalize p) Q E w := by
  refine wp_syscall _ ?_ fun h => herr _ fun h' => h h'.1
  simp only [Act.wp, World.tick_resolve, World.tick_fs]
  cases hr : w.resolve true p with
  | error e =>
    refine herr e ?_
    rintro ⟨_, l, hl, _⟩
    rw [hr] at hl
    cases hl
  | ok l =>
    dsimp only
    have hok := hok l hr
    cases hl : w.fs l with
    | none =>
      refine herr _ ?_
      rintro ⟨_, l', hl', hx⟩
      rw [hr] at hl'
      cases hl'
      rw [hl] at hx
      cases hx
    | some x => rw [hl] at hok; exact hok rfl

/-- Opening a file gives its content. -/
theorem openFile_ok {p : Path} {w w' : World} {c : Bytes} (h : openFile p w = (.ok c, w')) :
    w.content p = some c ∧ w' = w.tick := by
  unfold openFile syscall at h
  unfold World.content
  cases hf : w.faults w.calls with
  | some k => rw [hf] at h; cases h
  | none =>
    rw [hf] at h
    simp only [World.tick_resolve, World.tick_fs] at h
    cases hr : w.resolve true p with
    | error e => rw [hr] at h; cases h
    | ok l =>
      rw [hr] at h
      dsimp only at h ⊢
      cases hl : w.fs l with
      | none => rw [hl] at h; cases h
      | some x =>
        rw [hl] at h
        cases x with
        | dir m => cases h
        | file c m t => cases h; exact ⟨rfl, rfl⟩
        | link t => cases h

/-- A directory is recognised when no call fails. -/
theorem wp_pathIsDir {p : Path} {Q : Bool → World → Prop} {E : Errno → World → Prop} {w : World}
    (htrue : ∀ l, w.resolve true p = .ok l → w.fs.isDir l = true → Q true w.tick)
    (hfalse : ¬(w.Reliable ∧ ∃ l, w.resolve true p = .ok l ∧ w.fs.isDir l = true) → Q false w.tick) :
    Act.wp (pathIsDir p) Q E w := by
  unfold pathIsDir
  rw [Act.wp_tryCatch]
  refine wp_syscall _ ?_ fun h => hfalse fun h' => h h'.1
  simp only [Act.wp, World.tick_resolve, World.tick_fs]
  cases hr : w.resolve true p with
  | error e =>
    refine hfalse ?_
    rintro ⟨_, l, hl, _⟩
    rw [hr] at hl
    cases hl
  | ok l =>
    dsimp only
    have htrue := htrue l hr
    cases hd : w.fs.isDir l with
    | true => exact htrue hd
    | false =>
      refine hfalse ?_
      rintro ⟨_, l', hl', hx⟩
      rw [hr] at hl'
      cases hl'
      rw [hd] at hx
      cases hx

/-- A directory made stands where nothing stood. -/
theorem wp_mkdir {p : Path} {Q : Unit → World → Prop} {E : Errno → World → Prop} {w : World}
    (hok : ∀ l, w.resolve false p = .ok l → w.fs l = none →
      Q () (w.tick.emit l (some (.dir (w.dirMode l.dropLast)))))
    (herr : ∀ e, ¬ w.Reliable ∧ e = .io ∨ w.resolve false p = .error e ∨
      e = .exist ∧ (∃ l, w.resolve false p = .ok l ∧ (w.fs l).isSome) → E e w.tick) : Act.wp (mkdir p) Q E w := by
  refine wp_syscall _ ?_ fun h => herr _ (.inl ⟨h, rfl⟩)
  simp only [Act.wp, World.tick_resolve, World.tick_fs]
  cases hr : w.resolve false p with
  | error e => exact herr e (.inr (.inl hr))
  | ok l =>
    dsimp only
    have hok := hok l hr
    cases hl : w.fs l with
    | none => exact hok hl
    | some x => exact herr _ (.inr (.inr ⟨rfl, l, hr, by rw [hl]; rfl⟩))

/-- A link made stands where nothing stood; without faults only the place or an empty target prevents it. -/
theorem wp_symlink {t p : Path} {Q : Unit → World → Prop} {E : Errno → World → Prop} {w : World}
    (hok : ∀ l, w.resolve false p = .ok l → w.fs l = none → t ≠ [] → Q () (w.tick.emit l (some (.link t))))
    (herr : ∀ e, ¬(w.Reliable ∧ t ≠ [] ∧ ∃ l, w.resolve false p = .ok l ∧ w.fs l = none) → E e w.tick) :
    Act.wp (symlink t p) Q E w := by
  refine wp_syscall _ ?_ fun h => herr _ fun h' => h h'.1
  simp only [Act.wp, World.tick_resolve, World.tick_fs]
  cases hr : w.resolve false p with
  | error e =>
    refine herr e ?_
    rintro ⟨_, _, l, hl, _⟩
    rw [hr] at hl
    cases hl
  | ok l =>
    dsimp only
    have hok := hok l hr
    cases hl : w.fs l with
    | some x =>
      refine herr _ ?_
      rintro ⟨_, _, l', hl', hx⟩
      rw [hr] at hl'
      cases hl'
      rw [hl] at hx
      cases hx
    | none =>
      by_cases ht : t = []
      · simp only [if_pos ht]
        exact herr _ fun h => h.2.1 ht
      · simp only [if_neg ht]
        exact hok hl ht

/-- The path leads to a file, or to nothing yet. -/
def World.Writable (w : World) (p : Path) : Prop :=
  ∃ l, w.resolve true p = .ok l ∧ (w.fs l = none ∨ ∃ c m t, w.fs l = some (.file c m t))

/-- Calls that changed nothing leave a path as writable as it was. -/
theorem World.Leads.writable {P : Change → Prop} {w w' : World} (h : w.Leads P w') (hfs : w'.fs = w.fs) {p : Path}
    (hw : w.Writable p) : w'.Writable p := by
  unfold World.Writable World.resolve at hw ⊢
  rw [h.cwd, hfs]
  exact hw

/-- A file opened for writing is there and empty. -/
theorem wp_createFile {p : Path} {Q : Loc → World → Prop} {E : Errno → World → Prop} {w : World}
    (hok : ∀ l m, w.resolve true p = .ok l → (w.fs l = none ∨ ∃ c m t, w.fs l = some (.file c m t)) →
      Q l (w.tick.emit l (some (.file [] m w.now))))
    (herr : ∀ e, ¬(w.Reliable ∧ w.Writable p) → E e w.tick) : Act.wp (createFile p) Q E w := by
  refine wp_syscall _ ?_ fun h => herr _ fun h' => h h'.1
  simp only [Act.wp, World.tick_resolve, World.tick_fs]
  cases hr : w.resolve true p with
  | error e =>
    refine herr e ?_
    rintro ⟨_, l, hl, _⟩
    rw [hr] at hl
    cases hl
  | ok l =>
    dsimp only
    have hok := fun m => hok l m hr
    have herr : (∀ c m t, w.fs l ≠ some (.file c m t)) → w.fs l ≠ none → ∀ e, E e w.tick := by
      intro hf hn e
      refine herr e ?_
      rintro ⟨_, l', hl', hx⟩
      rw [hr] at hl'
      cases hl'
      rcases hx with hx | ⟨c, m, t, hx⟩
      · exact hn hx
      · exact hf c m t hx
    cases hl : w.fs l with
    | none => exact hok _ (.inl hl)
    | some x =>
      cases x with
      | dir m => exact herr (by simp [hl]) (by simp [hl]) _
      | file c m t => exact hok _ (.inr ⟨c, m, t, hl⟩)
      | link t => exact herr (by simp [hl]) (by simp [hl]) _

/-- A write to a file appends all of the data, or fails after a part of it; without data nothing happens. -/
theorem wp_writeUpTo {l : Loc} {d c : Bytes} {m : Nat} {t : Int} {Q : Unit → World → Prop}
    {E : Errno × Nat → World → Prop} {w : World} (hfs : w.fs l = some (.file c m t)) (hnone : d = [] → Q () w)
    (hok : d ≠ [] → Q () (w.tick.emit l (some (.file (c ++ d) (w.process.written m) w.now))))
    (hpart : ∀ k, d ≠ [] → ¬ w.Reliable →
      E (.io, k) (w.tick.emit l (some (.file (c ++ d.take k) (w.process.written m) w.now)))) :
    Act.wp (writeUpTo l d) Q E w := by
  unfold Act.wp writeUpTo
  by_cases hd : d = []
  · rw [if_pos hd]
    exact hnone hd
  · rw [if_neg hd, hfs]
    cases hf : w.faults w.calls with
    | none => exact hok hd
    | some k => exact hpart k hd fun h => by rw [h] at hf; cases hf

/-- The permissions of a file are changed where its path leads. -/
theorem wp_setPermissions {p : Path} {mode : Nat} {l : Loc} {c : Bytes} {m : Nat} {t : Int} {Q : Unit → World → Prop}
    {E : Errno → World → Prop} {w : World} (hr : w.resolve true p = .ok l) (hfs : w.fs l = some (.file c m t))
    (hok : Q () (w.tick.emit l (some (.file c (w.process.granted mode) t)))) (herr : ∀ e, ¬ w.Reliable → E e w.tick) :
    Act.wp (setPermissions p mode) Q E w := by
  refine wp_syscall _ ?_ (herr _)
  simp only [Act.wp, World.tick_resolve, World.tick_fs, hr, hfs]
  exact hok

theorem wp_setModified {l : Loc} {t : Int} {c : Bytes} {m : Nat} {t' : Int} {Q : Unit → World → Prop}
    {E : Errno → World → Prop} {w : World} (hfs : w.fs l = some (.file c m t'))
    (hok : Q () (w.tick.emit l (some (.file c m t)))) (herr : ∀ e, ¬ w.Reliable → E e w.tick) :
    Act.wp (setModified l t) Q E w := by
  refine wp_syscall _ ?_ (herr _)
  simp only [Act.wp, World.tick_fs, hfs]
  exact hok

/-- What making a directory and looking keep, creating directories keeps. -/
theorem keeps_createDirAllRev {P : World → Prop} (htick : ∀ w, P w → P w.tick) (hmk : ∀ p, Act.Keeps P (mkdir p)) :
    ∀ rev : List Component, Act.Keeps P (createDirAllRev rev)
  | [] => Act.keeps_pure ()
  | c :: rev => by
    have hor : ∀ e, Act.Keeps P (orIsDir (c :: rev).reverse e) := by
      intro e w h
      unfold orIsDir
      rw [Act.wp_bind]
      exact wp_pathIsDir (fun _ _ _ => htick w h) fun _ => htick w h
    intro w h
    rw [createDirAllRev, Act.wp_tryCatch]
    refine Act.wp_mono (hmk _ w h) (fun _ _ h => h) fun e w₁ h₁ => ?_
    split
    · split
      · exact h₁
      · rw [Act.wp_bind]
        refine Act.wp_mono (keeps_createDirAllRev htick hmk rev w₁ h₁) (fun _ w₂ h₂ => ?_) fun _ _ h => h
        rw [Act.wp_tryCatch]
        exact Act.wp_mono (hmk _ w₂ h₂) (fun _ _ h => h) hor
    · exact hor e w₁ h₁

/-- Creating directories makes directories only. -/
theorem createDirAllRev_leads {P : Change → Prop} (hP : ∀ l m, P ⟨l, some (.dir m)⟩) (rev : List Component)
    (w : World) : Act.wp (createDirAllRev rev) (fun _ w' => w.Leads P w') (fun _ w' => w.Leads P w') w := by
  refine keeps_createDirAllRev (P := fun w' => w.Leads P w') (fun w' h => h.trans (World.Leads.tick P w'))
    (fun p w' h => ?_) rev w (World.Leads.refl P w)
  exact wp_mkdir (fun l _ _ => h.trans (World.Leads.emit w' (hP l _))) fun _ _ => h.trans (World.Leads.tick P w')

end Posix
