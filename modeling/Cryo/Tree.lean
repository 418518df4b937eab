import Cryo.Extract
import Cryo.Lib.Directories

/-!
# Extracting a tree

Files and directories of which none stands in the way of another (`Apart`) are extracted into an empty directory one
after another: what stands below it are the files extracted so far, with the bytes, modes and times of their entries,
and the directories above them (`Extracted`). One entry keeps this (`wp_extractEntry`), so all of them do
(`wp_handleFiles`).
-/

namespace Cryo

open Posix Bytes World

/-- A regular file or a directory that passes the checks of an extraction. -/
structure FileEntry.Fits (f : FileEntry) (limits : Limits) : Prop where
  safe : isSafePath f.path = true
  named : f.path.names ≠ []
  kind : f.ftype = .file ∨ f.ftype = .dir
  size : f.size ≤ limits.effMaxFile
  range : f.streamOffset + f.size < 2 ^ 64
  time : f.timestamp < 2 ^ 63

/-- Of two things with their names, neither is a file where the other stands or above it. -/
def Apart (a b : FileType × List String) : Prop := (a.1 = .file → ¬ a.2 <+: b.2) ∧ (b.1 = .file → ¬ b.2 <+: a.2)

instance : DecidableRel Apart := fun a b =>
  inferInstanceAs (Decidable ((a.1 = .file → ¬ a.2 <+: b.2) ∧ (b.1 = .file → ¬ b.2 <+: a.2)))

/-- What an entry is and where it stands. -/
def FileEntry.place (f : FileEntry) : FileType × List String := (f.ftype, f.path.names)

namespace ArchiveReader

variable (K : Crates) (r : ArchiveReader)

/-- The blocks decode to `ps`. -/
structure DecodesTo (ps : List Bytes) : Prop where
  decoded : r.Decoded K r.engine ps
  readable : r.Readable K r.engine
  engine : DecompressingEngine.new K r.header.compression = .ok r.engine
  buffer : r.header.blockSize < 2 ^ 63

/-- Below `R` stand the files of `done` as their entries describe them, and nothing else but directories on the way to
entries of `seen`. -/
structure Extracted (ps : List Bytes) (R : Loc) (seen done : List FileEntry) (w : World) : Prop where
  rooted : w.Rooted r.root R
  only : ∀ ns x, ns ≠ [] → w.fs (R ++ ns) = some x →
    (∃ m, x = .dir m) ∧ (∃ f ∈ seen, ns <+: f.path.names) ∨ ∃ f ∈ seen, f.ftype = .file ∧ ns = f.path.names
  files : ∀ f ∈ done, f.ftype = .file → w.fs (R ++ f.path.names) = some
    (.file (slice f.streamOffset f.size ps.flatten) (r.fileMode w.process f) f.timestamp)
  dirs : ∀ f ∈ done, f.ftype = .dir → w.fs.isDir (R ++ f.path.names) = true

variable {K r} {ps : List Bytes} {R : Loc} {seen done : List FileEntry} {w w' : World} {f : FileEntry}

namespace Extracted

/-- Nothing but directories stands along the way of an entry that stands apart. -/
theorem clean (h : r.Extracted ps R seen done w) (hapart : ∀ g ∈ seen, Apart g.place f.place) :
    w.fs.Clean R f.path.names := by
  intro pre hpre
  by_cases hnil : pre = []
  · rw [hnil, List.append_nil]
    exact .inr h.rooted.isDir
  · cases hx : w.fs (R ++ pre) with
    | none => exact .inl rfl
    | some x =>
      right
      rcases h.only pre x hnil hx with ⟨⟨m, rfl⟩, _⟩ | ⟨g, hg, hgf, rfl⟩
      · exact FS.isDir_iff.2 ⟨m, hx⟩
      · exact absurd hpre ((hapart g hg).1 hgf)

/-- Nothing stands where a file that stands apart will be. -/
theorem free (h : r.Extracted ps R seen done w) (hapart : ∀ g ∈ seen, Apart g.place f.place) (hf : f.ftype = .file)
    (hnamed : f.path.names ≠ []) : w.fs (R ++ f.path.names) = none := by
  cases hx : w.fs (R ++ f.path.names) with
  | none => rfl
  | some x =>
    rcases h.only _ x hnamed hx with ⟨_, g, hg, hpre⟩ | ⟨g, hg, hgf, heq⟩
    · exact absurd hpre ((hapart g hg).2 hf)
    · exact absurd (show g.path.names <+: f.path.names from heq ▸ List.prefix_refl _) ((hapart g hg).1 hgf)

/-- Directories made on the way to an entry. -/
theorem addDirs (h : r.Extracted ps R seen done w) {ms : List String} (hms : ms <+: f.path.names)
    (hclean : w.fs.Clean R ms) (hl : w.Leads (DirAlong R ms) w') : r.Extracted ps R (seen ++ [f]) done w' := by
  obtain ⟨hg, _⟩ := DirAlong.grows hclean hl
  have hplace : ∀ l, w'.fs l = w.fs l ∨ ∃ pre m, pre <+: ms ∧ l = R ++ pre ∧ w'.fs l = some (.dir m) := fun l =>
    hl.induct (I := fun fs => fs l = w.fs l ∨ ∃ pre m, pre <+: ms ∧ l = R ++ pre ∧ fs l = some (.dir m))
      (.inl rfl) <| by
      rintro fs ch ⟨pre, m, hpre, rfl⟩ ih
      by_cases heq : l = R ++ pre
      · exact .inr ⟨pre, m, hpre, heq, by rw [heq]; exact Function.update_self _ _ _⟩
      · rw [Function.update_of_ne heq]; exact ih
  refine ⟨h.rooted.grows hl hg, fun ns x hns hx => ?_, fun g hgd hgf => ?_,
    fun g hgd hgf => hg.isDir (h.dirs g hgd hgf)⟩
  · rcases hplace (R ++ ns) with heq | ⟨pre, m, hpre, heq, hdir⟩
    · rw [heq] at hx
      refine (h.only ns x hns hx).imp (fun ⟨hd, g, hgs, hp⟩ => ⟨hd, g, ?_, hp⟩) fun ⟨g, hgs, hp⟩ => ⟨g, ?_, hp⟩
      · exact List.mem_append_left _ hgs
      · exact List.mem_append_left _ hgs
    · obtain rfl := List.append_cancel_left heq
      rw [hdir] at hx
      exact .inl ⟨⟨m, (Option.some.inj hx).symm⟩, f, by simp, hpre.trans hms⟩
  · rw [hl.process]
    have hfile := h.files g hgd hgf
    rcases hplace (R ++ g.path.names) with heq | ⟨pre, m, hpre, heq, _⟩
    · rw [heq, hfile]
    · obtain rfl := List.append_cancel_left heq
      rcases hclean _ hpre with hnone | hdir
      · rw [hnone] at hfile; cases hfile
      · rw [FS.isDir, hfile] at hdir; cases hdir

/-- A directory was extracted. -/
theorem doneDir (h : r.Extracted ps R seen done w) (hf : f.ftype = .dir)
    (hdir : w.fs.isDir (R ++ f.path.names) = true) :
    r.Extracted ps R seen (done ++ [f]) w := by
  refine ⟨h.rooted, h.only, fun g hg hgf => ?_, fun g hg hgf => ?_⟩
  · rcases List.mem_append.1 hg with hg | hg
    · exact h.files g hg hgf
    · obtain rfl := List.mem_singleton.1 hg
      rw [hf] at hgf; cases hgf
  · rcases List.mem_append.1 hg with hg | hg
    · exact h.dirs g hg hgf
    · obtain rfl := List.mem_singleton.1 hg
      exact hdir

/-- A file was extracted. -/
theorem doneFile (h : r.Extracted ps R seen done w) (hf : f.ftype = .file) (hseen : f ∈ seen)
    (hapart : ∀ g ∈ done, Apart g.place f.place) {P : Change → Prop} (hl : w.Leads P w')
    (hP : ∀ ch, P ch → ch.loc = R ++ f.path.names) (hg : FS.Grows w.fs w'.fs)
    (hfile : w'.fs (R ++ f.path.names) = some
      (.file (slice f.streamOffset f.size ps.flatten) (r.fileMode w.process f) f.timestamp)) :
    r.Extracted ps R seen (done ++ [f]) w' := by
  have hframe : ∀ ns, ns ≠ f.path.names → w'.fs (R ++ ns) = w.fs (R ++ ns) := fun ns hne =>
    hl.frame fun ch hch heq => hne (List.append_cancel_left (heq.symm.trans (hP ch hch)))
  refine ⟨h.rooted.grows hl hg, fun ns x hns hx => ?_, fun g hgd hgf => ?_, fun g hgd hgf => ?_⟩
  · by_cases heq : ns = f.path.names
    · exact .inr ⟨f, hseen, hf, heq⟩
    · rw [hframe ns heq] at hx
      exact h.only ns x hns hx
  · rw [hl.process]
    rcases List.mem_append.1 hgd with hgd | hgd
    · have hne : g.path.names ≠ f.path.names := fun heq =>
        (hapart g hgd).1 hgf (show g.path.names <+: f.path.names from heq ▸ List.prefix_refl _)
      rw [hframe _ hne]
      exact h.files g hgd hgf
    · obtain rfl := List.mem_singleton.1 hgd
      exact hfile
  · rcases List.mem_append.1 hgd with hgd | hgd
    · exact hg.isDir (h.dirs g hgd hgf)
    · obtain rfl := List.mem_singleton.1 hgd
      rw [hf] at hgf; cases hgf

end Extracted

/-! ## One entry -/

/-- The output path of a safe entry is the entry below the root, in a directory that is made. -/
theorem wp_safeOutputPath {root relative : Path} {ns : List String} {n : String} (hroot : w.Rooted root R)
    (hsafe : isSafePath relative = true) (hnames : relative.names = ns ++ [n]) (hclean : w.fs.Clean R ns) :
    Act.wp (safeOutputPath root relative)
      (fun outDir w' => outDir = root ++ Path.ofNames (ns ++ [n]) ∧ w.Leads (DirAlong R ns) w' ∧ w'.fs.Filled R ns)
      (fun _ _ => False) w := by
  have hne : root ≠ [] := by
    rintro rfl
    cases hroot.resolves
  have hjoin : root.join relative = (root ++ Path.ofNames ns) ++ [.normal n] := by
    rw [join_safe hne hsafe, hnames, Path.ofNames_append, ← List.append_assoc]; rfl
  unfold safeOutputPath
  rw [if_neg (by simp [hsafe]), hjoin]
  dsimp only
  rw [Path.parent_snoc_normal, Act.wp_bind, wp_osCall]
  refine Act.wp_mono (wp_canonicalize_isDir hroot.reliable hroot.resolves hroot.isDir) ?_ fun _ _ h => h
  rintro _ _ ⟨rfl, rfl⟩
  dsimp only
  rw [Act.wp_bind, wp_osCall]
  refine Act.wp_mono (wp_createDirAll hroot.tick hclean) ?_ fun _ _ h => h
  rintro _ w₁ ⟨hl₁, hfull⟩
  have hlead := (Leads.tick (DirAlong R ns) w).trans hl₁
  have hroot₁ := hroot.grows hlead (DirAlong.grows hclean hlead).1
  have hparent : w₁.resolve true (root ++ Path.ofNames ns) = .ok (R ++ ns) := hfull.resolve hroot₁.resolves
  rw [Act.wp_bind, wp_osCall]
  refine Act.wp_mono (wp_canonicalize_isDir hroot₁.reliable hparent (hfull ns (List.prefix_refl _))) ?_ fun _ _ h => h
  rintro _ _ ⟨rfl, rfl⟩
  rw [if_neg (not_not.2 (Path.startsWith_ofLoc.2 (List.prefix_append R ns))), Act.wp_pure]
  exact ⟨by rw [Path.ofNames_append, ← List.append_assoc]; rfl, hlead.trans (Leads.tick _ _), hfull⟩

/-- The parent of an output path is there already. -/
theorem wp_createParent {ns : List String} {n : String} {P : Change → Prop} (hroot : w.Rooted r.root R)
    (hfull : w.fs.Filled R ns) :
    Act.wp (createParent (r.root ++ Path.ofNames (ns ++ [n]))) (fun _ w' => w.Leads P w' ∧ w'.fs = w.fs)
      (fun _ _ => False) w := by
  have hsplit : r.root ++ Path.ofNames (ns ++ [n]) = (r.root ++ Path.ofNames ns) ++ [.normal n] := by
    rw [Path.ofNames_append, ← List.append_assoc]; rfl
  unfold createParent
  rw [hsplit, Path.parent_snoc_normal]
  dsimp only
  rw [wp_osCall]
  exact wp_createDirAll_isDir hroot.reliable (hfull.resolve hroot.resolves) (hfull ns (List.prefix_refl _)) P

/-- A regular file is written where nothing stands yet. -/
theorem wp_extractFile_file (hdec : r.DecodesTo K ps) (hfits : f.Fits r.limits) (hf : f.ftype = .file)
    (hseen : f ∈ seen) (hapart : ∀ g ∈ done, Apart g.place f.place) (h : r.Extracted ps R seen done w) {outDir : Path}
    (hres : w.resolve true outDir = .ok (R ++ f.path.names)) (hfree : w.fs (R ++ f.path.names) = none) :
    Act.wp (r.extractRegular K f (f.streamOffset + f.size) outDir (buildBlockRanges r.index.block))
      (fun _ w' => r.Extracted ps R seen (done ++ [f]) w') (fun _ _ => False) w := by
  refine Act.wp_mono (wp_extractRegular hdec.decoded f outDir w) ?_ ?_
  · rintro _ w' ⟨hl, _, l, hl', hg, hfile⟩
    obtain rfl : R ++ f.path.names = l := Except.ok.inj (hres.symm.trans hl')
    refine h.doneFile hf hseen hapart hl ?_ hg hfile
    rintro ch ⟨l, hl'', _, hloc, _⟩
    rw [hloc]
    exact Except.ok.inj (hl''.symm.trans hres)
  · rintro e w' ⟨_, hbad⟩
    have hgood : r.Extractable K f outDir w := {
      reliable := h.rooted.reliable
      readable := hdec.readable
      engine := hdec.engine
      buffer := hdec.buffer
      time := hfits.time
      writable := ⟨_, hres, .inl hfree⟩ }
    exact hbad ⟨hgood.reliable, hgood.writable, hgood.decodable⟩

/-- **One entry** is extracted beside the others. -/
theorem wp_extractEntry (hdec : r.DecodesTo K ps) (hfits : f.Fits r.limits) (hapart : ∀ g ∈ done, Apart g.place f.place)
    (h : r.Extracted ps R done done w) :
    Act.wp (r.extractEntry K (buildBlockRanges r.index.block) f)
      (fun _ w' => r.Extracted ps R (done ++ [f]) (done ++ [f]) w') (fun _ _ => False) w := by
  obtain ⟨ns, n, hnames⟩ : ∃ ns n, f.path.names = ns ++ [n] := by
    rcases List.eq_nil_or_concat' f.path.names with hnil | h
    · exact absurd hnil hfits.named
    · exact h
  have hpre : ns <+: f.path.names := hnames ▸ List.prefix_append ns [n]
  have hclean := h.clean hapart
  unfold extractEntry
  rw [Act.wp_bind]
  refine Act.wp_mono (wp_safeOutputPath h.rooted hfits.safe hnames (hclean.upto hpre)) ?_ fun _ _ h => h
  rintro outDir w₁ ⟨rfl, hl₁, hfull₁⟩
  unfold extractFile
  rw [checkEntry_bind hfits.size hfits.range, Act.wp_bind]
  have hroot₁ := h.rooted.grows hl₁ (DirAlong.grows (hclean.upto hpre) hl₁).1
  refine Act.wp_mono (wp_createParent (P := DirAlong R ns) hroot₁ hfull₁) ?_ fun _ _ h => h
  rintro _ w₂ ⟨hl₂, hfs⟩
  -- the parent is there
  have hfull : w₂.fs.Filled R ns := by rw [hfs]; exact hfull₁
  have hl := hl₁.trans hl₂
  rcases hfits.kind with hf | hf
  · rw [hf]
    have h₂ := h.addDirs hpre (hclean.upto hpre) hl
    have hfree : w₂.fs (R ++ f.path.names) = none := by
      rw [hl.frame, h.free hapart hf hfits.named]
      rintro ch ⟨pre, m, hpre', rfl⟩ heq
      have hlen := hpre'.length_le
      rw [List.append_cancel_left heq, hnames, List.length_append] at hlen
      simp at hlen
    refine Act.wp_mono (wp_extractFile_file hdec hfits hf (by simp) hapart h₂ ?_ hfree) (fun _ _ h => h) fun _ _ h => h
    rw [hnames]
    exact FS.resolve_below true h₂.rooted.resolves hfull fun t ht => by rw [← hnames, hfree] at ht; cases ht
  · rw [hf]
    dsimp only
    have hlong := hl.mono fun ch hch => hch.mono hpre
    obtain ⟨hg, hclean₂⟩ := DirAlong.grows hclean hlong
    rw [wp_osCall, ← hnames]
    refine Act.wp_mono (wp_createDirAll (h.rooted.grows hlong hg) hclean₂) ?_ fun _ _ h => h
    rintro _ w₃ ⟨hl₃, hfull₃⟩
    exact (h.addDirs (List.prefix_refl _) hclean (hlong.trans hl₃)).doneDir hf (hfull₃ _ (List.prefix_refl _))

/-! ## All entries -/

theorem wp_extractEntries (hdec : r.DecodesTo K ps) : ∀ (files done : List FileEntry) {w : World},
    (∀ f ∈ files, f.Fits r.limits) → (done ++ files).Pairwise (fun f g => Apart f.place g.place) →
    r.Extracted ps R done done w →
    Act.wp (r.extractEntries K (buildBlockRanges r.index.block) files)
      (fun _ w' => r.Extracted ps R (done ++ files) (done ++ files) w') (fun _ _ => False) w
  | [], done, w, _, _, h => by
    rw [List.append_nil]
    exact h
  | f :: files, done, w, hfits, hapart, h => by
    have hf : ∀ g ∈ done, Apart g.place f.place := fun g hg =>
      (List.pairwise_append.1 hapart).2.2 g hg f List.mem_cons_self
    rw [extractEntries, Act.wp_bind]
    refine Act.wp_mono (wp_extractEntry hdec (hfits f List.mem_cons_self) hf h) ?_ fun _ _ h => h
    intro _ w₁ h₁
    have hsplit : done ++ f :: files = (done ++ [f]) ++ files := by simp
    rw [hsplit] at hapart ⊢
    exact wp_extractEntries hdec files (done ++ [f]) (fun g hg => hfits g (List.mem_cons_of_mem _ hg)) hapart h₁

/-- **Entries that stand apart are all extracted** into an empty directory. -/
theorem wp_handleFiles (hdec : r.DecodesTo K ps) (hfits : ∀ f ∈ r.index.files, f.Fits r.limits)
    (hapart : (r.index.files.map FileEntry.place).Pairwise Apart) (hroot : w.Vacant r.root R) :
    Act.wp (r.handleFiles K) (fun _ w' => r.Extracted ps R r.index.files r.index.files w') (fun _ _ => False) w := by
  unfold handleFiles
  rw [Act.wp_bind, wp_osCall]
  refine Act.wp_mono (wp_createDirAll_vacant hroot) ?_ fun _ _ h => h
  rintro _ w₁ ⟨hrooted, hbelow⟩
  have h₁ : r.Extracted ps R [] [] w₁ := by
    refine ⟨hrooted, fun ns x hns hx => ?_, by simp, by simp⟩
    rw [hbelow ns hns] at hx
    cases hx
  exact wp_extractEntries hdec r.index.files [] hfits (List.pairwise_map.1 hapart) h₁

end ArchiveReader
end Cryo
