import Cryo.Lib.PathText
import Cryo.Compress
import Cryo.Listing

/-!
# The names of archives

`archive_filename` of `writer.rs` looks at the last four letters of a name, and `check_read_only_args_for_errors` of
`list.rs` at the extension of the last component of a path. A name on which the two differ is one that ends with these
letters and has no extension, or a directory: the archive that is made has a name that no reader takes.

* `extension_archiveFilename`: which archives have the extension.
* `created_accepted_iff`: which archives that a compression makes are accepted.
-/

namespace Cryo

open Posix Separated

/-- A name whose archive readers take: it ends with the extension, behind another character of the last component, or it
does not end with the letters of the extension and is no directory. -/
def Extended (name : String) : Prop :=
  ∃ stem c, c ≠ '/' ∧ (name.toList = stem ++ c :: ".cryo".toList ∨
    (name.endsWith "cryo" = false ∧ name.toList = stem ++ [c]))

theorem endsWith_cryo_iff {name : String} : name.endsWith "cryo" = true ↔ ∃ u, name.toList = u ++ "cryo".toList := by
  rw [← String.endsWith_toSlice, String.Slice.endsWith_string_iff, String.copy_toSlice]
  exact ⟨fun ⟨u, hu⟩ => ⟨u, hu.symm⟩, fun ⟨u, hu⟩ => ⟨u, hu.symm⟩⟩

/-- Every archive ends with the letters. -/
theorem archiveFilename_ends (name : String) : ∃ u, (archiveFilename name).toList = u ++ "cryo".toList := by
  unfold archiveFilename
  split_ifs with h
  · exact endsWith_cryo_iff.1 h
  · exact ⟨name.toList ++ ['.'], by simp⟩

/-- What stands before the extension of an archive. -/
theorem archiveFilename_extended {name : String} {stem : List Char} {c : Char} :
    (archiveFilename name).toList = stem ++ c :: ".cryo".toList ↔
      name.toList = stem ++ c :: ".cryo".toList ∨ (name.endsWith "cryo" = false ∧ name.toList = stem ++ [c]) := by
  unfold archiveFilename
  by_cases h : name.endsWith "cryo" = true
  · rw [if_pos h]
    simp [h]
  · have hends : name.endsWith "cryo" = false := by simpa using h
    rw [if_neg h]
    constructor
    · intro heq
      refine .inr ⟨hends, ?_⟩
      have hcut : name.toList ++ ".cryo".toList = (stem ++ [c]) ++ ".cryo".toList := by simpa using heq
      exact List.append_cancel_right hcut
    · rintro (heq | ⟨-, heq⟩)
      · exact absurd (endsWith_cryo_iff.2 ⟨stem ++ [c, '.'], by simpa using heq⟩) h
      · simp [heq]

/-- **The extension of an archive**: the letters are an extension when a dot stands before them, and another character
of the last component before the dot. -/
theorem extension_archiveFilename (name : String) :
    (Path.ofString (archiveFilename name)).extension = some "cryo" ↔
      ∃ stem c, c ≠ '/' ∧ (archiveFilename name).toList = stem ++ c :: ".cryo".toList := by
  have hlast : ∀ l : List Char, l ++ "cryo".toList ≠ [] ∧ l ++ "cryo".toList ≠ ['.'] ∧
      l ++ "cryo".toList ≠ ['.', '.'] := by
    intro l
    refine ⟨by simp, fun h => ?_, fun h => ?_⟩ <;>
    · have hlength := congrArg List.length h
      simp at hlength
  constructor
  · intro hext
    obtain ⟨u, hu⟩ := archiveFilename_ends name
    obtain ⟨parts, l, rfl, hparts, hl⟩ : ∃ parts l, u = lines '/' parts ++ l ∧ (∀ part ∈ parts, '/' ∉ part) ∧ '/' ∉ l :=
      exists_lines u
    rw [List.append_assoc] at hu
    have hname := Path.fileName_ofString hu hparts (by simp [hl]) (hlast l)
    obtain ⟨w, hw, hne⟩ := (Path.extension_eq_iff hname (by decide)).1 hext
    -- Before the dot is a character of the last component.
    obtain ⟨w, c, rfl⟩ : ∃ w' c, w = w' ++ [c] := ⟨_, _, (List.dropLast_append_getLast hne).symm⟩
    have hl' : l = w ++ [c, '.'] := by
      have hcut : l ++ "cryo".toList = (w ++ [c, '.']) ++ "cryo".toList := by simpa using hw
      exact List.append_cancel_right hcut
    refine ⟨lines '/' parts ++ w, c, ?_, ?_⟩
    · rintro rfl
      simp [hl'] at hl
    · rw [hu, hl']
      simp
  · rintro ⟨stem, c, hc, hname⟩
    obtain ⟨parts, l, rfl, hparts, hl⟩ : ∃ parts l, stem = lines '/' parts ++ l ∧
        (∀ part ∈ parts, '/' ∉ part) ∧ '/' ∉ l :=
      exists_lines stem
    have hsplit : (archiveFilename name).toList = lines '/' parts ++ ((l ++ [c, '.']) ++ "cryo".toList) := by
      rw [hname]
      simp
    have hfile := Path.fileName_ofString hsplit hparts (by simp [hl, hc.symm]) (hlast _)
    refine (Path.extension_eq_iff hfile (by decide)).2 ⟨l ++ [c], by simp, by simp⟩

theorem checkReadOnlyArgs_archiveFilename (reader : ListSetup) (name : String) :
    checkReadOnlyArgsForErrors reader (Path.ofString (archiveFilename name)) = .ok () ↔
      Extended name ∧ reader.isFile (Path.ofString (archiveFilename name)) = true := by
  have hextended : (Path.ofString (archiveFilename name)).extension = some "cryo" ↔ Extended name := by
    rw [extension_archiveFilename]
    unfold Extended
    simp only [archiveFilename_extended]
  rw [← hextended]
  unfold checkReadOnlyArgsForErrors
  split_ifs with h
  · exact iff_of_true rfl h
  · exact iff_of_false (fun herr => by cases herr) h

variable {K : Crates} {setup : Setup} {env : Env} {args : CompressArgs} {arch : ArchiveWriter}

/-- A compression that succeeds has a name, and has made its archive. -/
theorem initializeCompression_created (h : initializeCompression K setup env args = .ok arch) :
    args.archiveName ≠ "" ∧ (setup.createNew (archiveFilename args.archiveName)).isSome := by
  obtain ⟨⟨root, queue, arch⟩, hstart, -⟩ := Except.bind_eq_ok.1 h
  obtain ⟨⟨root', queue'⟩, hprepare, hstart⟩ := Except.bind_eq_ok.1 (Except.mapError_eq_ok.1 hstart)
  obtain ⟨_, hcheck, -⟩ := Except.bind_eq_ok.1 hprepare
  obtain ⟨arch₀, hnew, -⟩ := Except.bind_eq_ok.1 hstart
  constructor
  · intro hempty
    rw [hempty] at hcheck
    cases hcheck
  · cases hc : setup.createNew (archiveFilename args.archiveName) with
    | none =>
      rw [hc] at hnew
      obtain ⟨_, _, hnew⟩ := Except.bind_eq_ok.1 hnew
      cases hnew
    | some faults => rfl

/-- **Which archives are accepted**: of the archives that a compression creates, the readers take those of an extended
name. -/
theorem created_accepted_iff (h : initializeCompression K setup env args = .ok arch) {reader : ListSetup}
    (hfile : reader.isFile (Path.ofString (archiveFilename args.archiveName)) = true) :
    args.archiveName ≠ "" ∧ (setup.createNew (archiveFilename args.archiveName)).isSome ∧
      (checkReadOnlyArgsForErrors reader (Path.ofString (archiveFilename args.archiveName)) = .ok () ↔
        Extended args.archiveName) := by
  obtain ⟨hname, hnew⟩ := initializeCompression_created h
  refine ⟨hname, hnew, ?_⟩
  rw [checkReadOnlyArgs_archiveFilename]
  exact and_iff_left hfile

/-- The archive `a.cryo`, of nothing. -/
theorem created_accepted :
    let K := Crates.tabled [Header.stored 2] [⟨[], [], 0⟩]
    ∃ arch, initializeCompression K (Setup.plain []) (Env.plain (Os.ofFiles [])) (CompressArgs.plain 2) = .ok arch ∧
      checkReadOnlyArgsForErrors .bare (Path.ofString "a.cryo") = .ok () := by
  intro K
  obtain ⟨arch, hmade, -⟩ := Except.exists_of_toOption_map (f := fun arch => arch.streamPosition)
    (x := initializeCompression K (Setup.plain []) (Env.plain (Os.ofFiles [])) (CompressArgs.plain 2))
    (b := 0) (by decide +kernel)
  have hends : "a".endsWith "cryo" = false := by decide +kernel
  have hfile : ListSetup.bare.isFile (Path.ofString (archiveFilename (CompressArgs.plain 2).archiveName)) = true := rfl
  have haccepted := (created_accepted_iff hmade hfile).2.2.2 ⟨[], 'a', by decide, .inr ⟨hends, rfl⟩⟩
  refine ⟨arch, hmade, ?_⟩
  rwa [show archiveFilename (CompressArgs.plain 2).archiveName = "a.cryo" by decide +kernel] at haccepted

/-- **A compression under the name `mycryo` succeeds**, and the readers refuse its archive. -/
theorem mycryo_refused :
    let K := Crates.tabled [Header.stored 2] [⟨[], [], 0⟩]
    let args := { CompressArgs.plain 2 with archiveName := "mycryo" }
    (∃ arch, initializeCompression K (Setup.plain []) (Env.plain (Os.ofFiles [])) args = .ok arch) ∧
      archiveFilename args.archiveName = "mycryo" ∧
      checkReadOnlyArgsForErrors .bare (Path.ofString (archiveFilename args.archiveName)) =
        .error (.initializationError "path is not a .cryo archive file") := by
  intro K args
  obtain ⟨arch, hmade, -⟩ := Except.exists_of_toOption_map (f := fun arch => arch.streamPosition)
    (x := initializeCompression K (Setup.plain []) (Env.plain (Os.ofFiles [])) args) (b := 0) (by decide +kernel)
  have hname : archiveFilename args.archiveName = "mycryo" := by decide +kernel
  refine ⟨⟨arch, hmade⟩, hname, ?_⟩
  rw [hname]
  unfold checkReadOnlyArgsForErrors
  rw [if_neg fun h => absurd h.1 (by decide +kernel)]

end Cryo
