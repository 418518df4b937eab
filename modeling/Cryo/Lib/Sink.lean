import Cryo.Lib.Act
import Cryo.Lib.Bytes
import Cryo.Lib.FileSystem

/-!
# A file open for writing

A `Sink` is an open file with its content, the position of the next write and a plan of which calls fail; a failing
write may have written a part of its data. Successful writes compose: `Wrote s d s'` says that `d` was written from `s`
to `s'`, whatever the pieces (`Wrote.trans`).
-/

namespace Posix

open Bytes

structure Sink where
  bytes : Bytes
  pos : Nat
  /-- The calls that fail, by number, and how many bytes such a write still writes. -/
  faults : Nat → Option Nat
  calls : Nat

namespace Sink

/-- The file after `d` was written at the position. -/
def put (s : Sink) (d : Bytes) : Sink :=
  { s with bytes := overwrite s.pos d s.bytes, pos := s.pos + d.length, calls := s.calls + 1 }

def writeAll (d : Bytes) : Act Sink Errno Unit := fun s =>
  match s.faults s.calls with
  | some k => (.error .io, s.put (d.take k))
  | none => (.ok (), s.put d)

def flush : Act Sink Errno Unit := fun s =>
  match s.faults s.calls with
  | some _ => (.error .io, { s with calls := s.calls + 1 })
  | none => (.ok (), { s with calls := s.calls + 1 })

def setLen (n : Nat) : Act Sink Errno Unit := fun s =>
  match s.faults s.calls with
  | some _ => (.error .io, { s with calls := s.calls + 1 })
  | none => (.ok (), { s with bytes := Bytes.setLen n s.bytes, calls := s.calls + 1 })

/-- A new empty file. -/
def create (faults : Nat → Option Nat) : Sink where
  bytes := []
  pos := 0
  faults := faults
  calls := 0

/-- No call fails. -/
def Reliable (s : Sink) : Prop := ∀ n, s.faults n = none

/-- `d` was written between `s` and `s'`, in any number of calls. -/
structure Wrote (s : Sink) (d : Bytes) (s' : Sink) : Prop where
  bytes : s'.bytes = overwrite s.pos d s.bytes
  pos : s'.pos = s.pos + d.length
  faults : s'.faults = s.faults

theorem Wrote.refl (s : Sink) : Wrote s [] s := ⟨by simp, rfl, rfl⟩

theorem Wrote.put (s : Sink) (d : Bytes) : Wrote s d (s.put d) := ⟨rfl, rfl, rfl⟩

theorem Wrote.trans {s s' s'' : Sink} {d e : Bytes} (hpos : s.pos ≤ s.bytes.length) (h : Wrote s d s')
    (h' : Wrote s' e s'') : Wrote s (d ++ e) s'' where
  bytes := by rw [h'.bytes, h.pos, h.bytes, overwrite_overwrite hpos]
  pos := by rw [h'.pos, h.pos, List.length_append, Nat.add_assoc]
  faults := h'.faults.trans h.faults

/-- The position stays inside the file. -/
theorem Wrote.inside {s s' : Sink} {d : Bytes} (hpos : s.pos ≤ s.bytes.length) (h : Wrote s d s') :
    s'.pos ≤ s'.bytes.length := by
  rw [h.pos, h.bytes]; exact length_overwrite_ge _ _ _ hpos

theorem writeAll_ok {s s' : Sink} {d : Bytes} (h : writeAll d s = (.ok (), s')) : Wrote s d s' := by
  unfold writeAll at h
  split at h
  · cases h
  · cases h; exact Wrote.put s d

theorem flush_ok {s s' : Sink} (h : flush s = (.ok (), s')) : s' = { s with calls := s.calls + 1 } := by
  unfold flush at h
  split at h
  · cases h
  · cases h; rfl

theorem setLen_ok {n : Nat} {s s' : Sink} (h : setLen n s = (.ok (), s')) :
    s' = { s with bytes := Bytes.setLen n s.bytes, calls := s.calls + 1 } := by
  unfold setLen at h
  split at h
  · cases h
  · cases h; rfl

/-- A call that succeeds on a reliable file and leaves it reliable. -/
def Succeeds (x : Act Sink Errno Unit) : Prop := ∀ s : Sink, s.Reliable → ∃ s', x s = (.ok (), s') ∧ s'.Reliable

theorem writeAll_succeeds (d : Bytes) : Succeeds (writeAll d) := fun s h =>
  ⟨s.put d, by unfold writeAll; rw [h], h⟩

theorem flush_succeeds : Succeeds flush := fun s h => ⟨{ s with calls := s.calls + 1 }, by unfold flush; rw [h], h⟩

theorem setLen_succeeds (n : Nat) : Succeeds (setLen n) := fun s h =>
  ⟨{ s with bytes := Bytes.setLen n s.bytes, calls := s.calls + 1 }, by unfold setLen; rw [h], h⟩

end Sink
end Posix
