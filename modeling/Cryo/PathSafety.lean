import Cryo.Format
import Cryo.Lib.FsCalls

/-!
# Output paths

`path_safety.rs`: which entry paths are accepted, where an entry is extracted, and the lexical normalisation that
checks a link's target. Errors of the file system calls are replaced as the source does (`osCall`).
-/

namespace Cryo

open Posix

abbrev ExtractM := Act World Halt

section Calls

variable {σ α β : Type}

/-- A call whose failure is reported as `e`. -/
def osCall (e : CryoErrors) (x : Act σ Errno α) : Act σ Halt α := Act.mapErr (fun _ => .err e) x

theorem wp_osCall {e : CryoErrors} {x : Act σ Errno α} {Q : α → σ → Prop} {E : Halt → σ → Prop} {s : σ} :
    Act.wp (osCall e x) Q E s ↔ Act.wp x Q (fun _ => E (.err e)) s := Act.wp_mapErr _ x

theorem keeps_osCall {P : σ → Prop} {e : CryoErrors} {x : Act σ Errno α} (h : Act.Keeps P x) :
    Act.Keeps P (osCall e x) := Act.keeps_mapErr h

/-- A result that does not touch the file system. -/
def liftResult (r : Result α) : Act σ Halt α := Act.lift (r.mapError .err)

theorem liftResult_ok_bind (a : α) (f : α → Act σ Halt β) : (liftResult (.ok a) >>= f) = f a := rfl

theorem liftResult_error_bind (e : CryoErrors) (f : α → Act σ Halt β) :
    (liftResult (.error e) >>= f) = Act.throw (.err e) := rfl

end Calls

def isSafePath (p : Path) : Bool := p.all fun
  | .parentDir => false
  | .rootDir => false
  | .normal _ => true
  | .curDir => true

/-- Creating the missing parents comes before the check of where they are. -/
def safeOutputPath (root relative : Path) : ExtractM Path := do
  if ¬ isSafePath relative then Act.throw (.err (.unsafePath relative))
  else do
    let joined := root.join relative
    let canonicalRoot ← osCall .invalidPath (canonicalize root)
    match joined.parent with
    | some parent => do
      osCall .writeError (createDirAll parent)
      let canonicalParent ← osCall (.unsafePath canonicalRoot) (canonicalize parent)
      if ¬ canonicalParent.startsWith canonicalRoot then Act.throw (.err (.unsafePath relative)) else pure joined
    | none => pure joined

/-- What looking and making its parent keep, computing the output path keeps. -/
theorem wp_safeOutputPath_keeps {P : World → Prop} {root relative : Path} (hcanon : ∀ p, Act.Keeps P (canonicalize p))
    (hdirs : isSafePath relative = true → ∀ p, (root.join relative).parent = some p → Act.Keeps P (createDirAll p))
    {w : World} (h : P w) :
    Act.wp (safeOutputPath root relative)
      (fun outDir w' => (isSafePath relative = true ∧ outDir = root.join relative) ∧ P w') (fun _ w' => P w') w := by
  unfold safeOutputPath
  split
  · exact h
  · rename_i hsafe
    have hsafe : isSafePath relative = true := by simpa using hsafe
    rw [Act.wp_bind]
    refine Act.wp_mono (keeps_osCall (hcanon root) w h) (fun canonicalRoot w₁ h₁ => ?_) fun _ _ h => h
    split
    · rename_i parent hp
      rw [Act.wp_bind]
      refine Act.wp_mono (keeps_osCall (hdirs hsafe parent hp) w₁ h₁) (fun _ w₂ h₂ => ?_) fun _ _ h => h
      rw [Act.wp_bind]
      refine Act.wp_mono (keeps_osCall (hcanon parent) w₂ h₂) (fun _ w₃ h₃ => ?_) fun _ _ h => h
      split
      · exact h₃
      · exact ⟨⟨hsafe, rfl⟩, h₃⟩
    · exact ⟨⟨hsafe, rfl⟩, h₁⟩

/-- One component of the normalisation, on the stack of components kept so far (the last one first). -/
def normalizeStep (stack : List Component) (c : Component) : List Component :=
  match c with
  | .normal _ => c :: stack
  | .parentDir =>
    match stack with
    | .normal _ :: rest => rest
    | _ => c :: stack
  | .curDir => stack
  | .rootDir => c :: stack

def normalize (path : Path) : Path := (path.foldl normalizeStep []).reverse

theorem isSafePath_ofNames (ns : List String) : isSafePath (Path.ofNames ns) = true := by
  simp [isSafePath, Path.ofNames]

/-- The names of a safe path are all of it but the dots. -/
theorem filter_safe {p : Path} (h : isSafePath p = true) : p.filter (· ≠ .curDir) = Path.ofNames p.names := by
  induction p with
  | nil => rfl
  | cons c cs ih =>
    have hs : isSafePath cs = true := by
      unfold isSafePath at h ⊢
      rw [List.all_cons, Bool.and_eq_true] at h
      exact h.2
    cases c with
    | rootDir => simp [isSafePath] at h
    | parentDir => simp [isSafePath] at h
    | curDir =>
      rw [List.filter_cons_of_neg (by simp), ih hs]
      rfl
    | normal n =>
      rw [List.filter_cons_of_pos (by simp), ih hs]
      rfl

/-- A safe path below a root. -/
theorem join_safe {root p : Path} (hroot : root ≠ []) (h : isSafePath p = true) :
    root.join p = root ++ Path.ofNames p.names := by
  have hrel : p.isAbsolute = false := by
    cases p with
    | nil => rfl
    | cons c cs =>
      cases c with
      | rootDir => simp [isSafePath] at h
      | curDir => rfl
      | parentDir => rfl
      | normal n => rfl
  unfold Path.join
  rw [if_neg (by simp [hrel]), if_neg hroot, filter_safe h]

end Cryo
