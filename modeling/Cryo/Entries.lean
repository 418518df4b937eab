import Cryo.Containment
import Cryo.Lib.NewDirs
import Cryo.Tree

/-!
# Entries of every kind

The extraction of directories, links and regular files into an empty directory. Whether an entry can be extracted is
decided by the archive and the output directory alone (`Good`), as long as it stands beside the entries that were
extracted before (`Beside`), and so is what it leaves (`outcome`).

`Grown w₀ R seen done w` says what stands below the output root after the entries of `done`: their outcomes, and
directories on the way. One entry keeps this, and fails exactly when it is not good (`wp_extractEntry_iff`), so all of
them do (`wp_handleFiles_iff`).
-/

namespace Cryo

open Posix Bytes World

/-- Of two things with their names, neither stands where the other stands or above it, unless it is a directory. -/
def Beside (a b : FileType × List String) : Prop := (a.1 ≠ .dir → ¬ a.2 <+: b.2) ∧ (b.1 ≠ .dir → ¬ b.2 <+: a.2)

instance : DecidableRel Beside := fun a b =>
  inferInstanceAs (Decidable ((a.1 ≠ .dir → ¬ a.2 <+: b.2) ∧ (b.1 ≠ .dir → ¬ b.2 <+: a.2)))

/-- A link with this target, made in the directory `d`, leads below `R` by its text. -/
def LeadsInside (R d : Loc) (target : Path) : Prop :=
  (normalize ((Path.ofLoc d).join target)).startsWith (Path.ofLoc R) = true

instance (R d : Loc) (target : Path) : Decidable (LeadsInside R d target) :=
  inferInstanceAs (Decidable (_ = true))

/-- A node of the type of the entry, a link with its target. -/
def FileEntry.Stands (f : FileEntry) : Node → Prop
  | .dir _ => f.ftype = .dir
  | .file _ _ _ => f.ftype = .file
  | .link t => f.ftype = .symlink ∧ f.symlinkTarget = some t

namespace ArchiveReader

variable (K : Crates) (r : ArchiveReader)

/-- What the extraction of an entry leaves below `R`, where `w₀` has the empty output root. -/
def outcome (w₀ : World) (R : Loc) (f : FileEntry) : Option Node :=
  match f.ftype with
  | .dir => some (.dir (w₀.dirMode R))
  | .symlink => f.symlinkTarget.map .link
  | .file => (r.decodeEntry K f).toOption.map fun d => .file d (r.fileMode w₀.process f) f.timestamp

/-- The output root is seen below its own parent. -/
def SelfBelow (w₀ : World) (R : Loc) : Prop :=
  ∀ p, r.root.parent = some p → ∃ d, w₀.resolve true p = .ok d ∧ R <+: d

/-- Nothing but other entries can stop the extraction of an entry below `R`, where `w₀` has the empty output root. -/
structure Good (w₀ : World) (R : Loc) (f : FileEntry) : Prop where
  safe : isSafePath f.path = true
  size : f.size ≤ r.limits.effMaxFile
  range : f.streamOffset + f.size < 2 ^ 64
  named : f.path.names = [] → f.ftype = .dir ∧ r.SelfBelow w₀ R
  link : f.ftype = .symlink → ∃ t, f.symlinkTarget = some t ∧ t ≠ [] ∧ LeadsInside R (R ++ f.path.names.dropLast) t
  file : f.ftype = .file → r.Decodable K f

/-- Since `w₀` the entries of `done` were extracted below `R`: there stand their outcomes, and nothing else but
directories on the way to entries of `seen`. -/
structure Grown (w₀ : World) (R : Loc) (seen done : List FileEntry) (w : World) : Prop where
  reliable : w.Reliable
  cwd : w.cwd = w₀.cwd
  process : w.process = w₀.process
  inherits : w.fs.Inherits R (w₀.fs.setgid R)
  kept : ∀ l, w₀.fs l ≠ none → w.fs l = w₀.fs l
  outside : ∀ l, ¬ R <+: l → w.fs l = w₀.fs l
  only : ∀ ns x, ns ≠ [] → w.fs (R ++ ns) = some x →
    x = .dir (w₀.dirMode R) ∧ (∃ f ∈ seen, ns <+: f.path.names) ∨
      ∃ f ∈ seen, f.ftype ≠ .dir ∧ ns = f.path.names
  made : ∀ f ∈ done, f.path.names ≠ [] →
    ∃ x, r.outcome K w₀ R f = some x ∧ w.fs (R ++ f.path.names) = some x
  along : ∀ f ∈ done, ∀ pre, pre <+: f.path.names → pre ≠ f.path.names → w.fs.isDir (R ++ pre) = true

variable {K r} {R : Loc} {w₀ w w' : World} {seen done : List FileEntry} {f : FileEntry}

/-- An outcome has the type of its entry. -/
theorem stands_of_outcome {x : Node} (h : r.outcome K w₀ R f = some x) : f.Stands x := by
  unfold outcome at h
  cases hf : f.ftype with
  | dir =>
    rw [hf] at h
    cases h
    exact hf
  | symlink =>
    rw [hf] at h
    obtain ⟨t, ht, rfl⟩ := Option.map_eq_some_iff.1 h
    exact ⟨hf, ht⟩
  | file =>
    rw [hf] at h
    obtain ⟨d, _, rfl⟩ := Option.map_eq_some_iff.1 h
    exact hf

namespace Grown

theorem start (hroot : EmptyRoot w₀ r.root R) (hrel : w₀.Reliable) : r.Grown K w₀ R [] [] w₀ where
  reliable := hrel
  cwd := rfl
  process := rfl
  inherits := .of_empty hroot.isDir hroot.empty
  kept _ _ := rfl
  outside _ _ := rfl
  only ns x hns hx := by
    rw [hroot.empty ns hns] at hx
    cases hx
  made := by simp
  along := by simp

theorem rooted (h : r.Grown K w₀ R seen done w) (hroot : EmptyRoot w₀ r.root R) : w.Rooted r.root R := by
  obtain ⟨m, hm⟩ := FS.isDir_iff.1 hroot.isDir
  refine ⟨h.reliable, ?_, FS.isDir_iff.2 ⟨m, by rw [h.kept R (by simp [hm]), hm]⟩⟩
  unfold World.resolve
  rw [h.cwd]
  exact FS.resolve_kept h.kept hroot.resolves (by simp [hm])

/-- Nothing but directories stands along the way of an entry beside the others. -/
theorem clean (h : r.Grown K w₀ R seen done w) (hroot : EmptyRoot w₀ r.root R)
    (hbeside : ∀ g ∈ seen, Beside g.place f.place) : w.fs.Clean R f.path.names := by
  intro pre hpre
  by_cases hnil : pre = []
  · rw [hnil, List.append_nil]
    exact .inr (h.rooted hroot).isDir
  · cases hx : w.fs (R ++ pre) with
    | none => exact .inl rfl
    | some x =>
      right
      rcases h.only pre x hnil hx with ⟨rfl, _⟩ | ⟨g, hg, hgd, rfl⟩
      · exact FS.isDir_iff.2 ⟨_, hx⟩
      · exact absurd hpre ((hbeside g hg).1 hgd)

/-- Nothing stands where an entry that is no directory will be. -/
theorem free (h : r.Grown K w₀ R seen done w) (hbeside : ∀ g ∈ seen, Beside g.place f.place) (hf : f.ftype ≠ .dir)
    (hnamed : f.path.names ≠ []) : w.fs (R ++ f.path.names) = none := by
  cases hx : w.fs (R ++ f.path.names) with
  | none => rfl
  | some x =>
    rcases h.only _ x hnamed hx with ⟨_, g, hg, hpre⟩ | ⟨g, hg, hgd, heq⟩
    · exact absurd hpre ((hbeside g hg).2 hf)
    · exact absurd (show g.path.names <+: f.path.names from heq ▸ List.prefix_refl _) ((hbeside g hg).1 hgd)

/-- Directories made on the way to an entry. -/
theorem addDirs (h : r.Grown K w₀ R seen done w) {seen' : List FileEntry} (hseen : seen ⊆ seen') (hf : f ∈ seen')
    {ms : List String} (hms : ms <+: f.path.names) (hl : w.Leads (DirAlong R ms) w') (hfresh : w.Fresh w') :
    r.Grown K w₀ R seen' done w' where
  reliable := hl.reliable h.reliable
  cwd := hl.cwd.trans h.cwd
  process := hfresh.process.trans h.process
  inherits := hfresh.inherits _ _ h.inherits
  kept l hl₀ := by
    have heq := h.kept l hl₀
    rw [hfresh.kept (by rw [heq]; exact hl₀), heq]
  outside l hout := by
    rw [← h.outside l hout]
    refine hl.frame fun ch ⟨pre, m, _, hch⟩ heq => hout ?_
    rw [← heq, hch]
    exact List.prefix_append R pre
  only ns x hns hx := by
    rcases hfresh.nodes (R ++ ns) with heq | ⟨hnone, m, hdir, hmade⟩
    · rw [heq] at hx
      exact (h.only ns x hns hx).imp (fun ⟨hd, g, hg, hp⟩ => ⟨hd, g, hseen hg, hp⟩) fun ⟨g, hg, hp⟩ => ⟨g, hseen hg, hp⟩
    · rw [(hmade.congr h.process).eq (hfresh.inherits _ _ h.inherits) hdir] at hdir
      rw [hdir] at hx
      refine .inl ⟨(Option.some.inj hx).symm, f, hf, ?_⟩
      -- what is new stands on the way
      by_contra hnot
      have hframe : w'.fs (R ++ ns) = w.fs (R ++ ns) := hl.frame fun ch ⟨pre, m, hpre, hch⟩ heq => by
        rw [hch] at heq
        exact hnot (List.append_cancel_left heq ▸ hpre.trans hms)
      rw [hframe, hnone] at hdir
      cases hdir
  made g hg hns := by
    obtain ⟨x, hx, hfs⟩ := h.made g hg hns
    exact ⟨x, hx, by rw [hfresh.kept (by simp [hfs]), hfs]⟩
  along g hg pre hpre hne := by
    obtain ⟨m, hm⟩ := FS.isDir_iff.1 (h.along g hg pre hpre hne)
    exact FS.isDir_iff.2 ⟨m, by rw [hfresh.kept (by simp [hm]), hm]⟩

/-- A directory was extracted. -/
theorem doneDir (h : r.Grown K w₀ R (done ++ [f]) done w) (hbeside : ∀ g ∈ done, Beside g.place f.place)
    (hf : f.ftype = .dir) (hfull : w.fs.Filled R f.path.names) :
    r.Grown K w₀ R (done ++ [f]) (done ++ [f]) w := by
  refine { h with made := fun g hg hns => ?_, along := fun g hg pre hpre hne => ?_ }
  · rcases List.mem_append.1 hg with hg | hg
    · exact h.made g hg hns
    · obtain rfl := List.mem_singleton.1 hg
      obtain ⟨m, hm⟩ := FS.isDir_iff.1 (hfull _ (List.prefix_refl _))
      refine ⟨.dir m, ?_, hm⟩
      rcases h.only _ _ hns hm with ⟨heq, _⟩ | ⟨g', hg', hgd, heq⟩
      · rw [outcome, hf, heq]
      · rcases List.mem_append.1 hg' with hg' | hg'
        · exact absurd (show g'.path.names <+: g.path.names from heq ▸ List.prefix_refl _) ((hbeside g' hg').1 hgd)
        · rw [List.mem_singleton.1 hg'] at hgd
          exact absurd hf hgd
  · rcases List.mem_append.1 hg with hg | hg
    · exact h.along g hg pre hpre hne
    · obtain rfl := List.mem_singleton.1 hg
      exact hfull pre hpre

/-- The outcome of a link or a file was put where nothing stood. -/
theorem donePut (h : r.Grown K w₀ R (done ++ [f]) done w) (hf : f.ftype ≠ .dir)
    (hfull : ∀ pre, pre <+: f.path.names → pre ≠ f.path.names → w.fs.isDir (R ++ pre) = true)
    (hfree : w.fs (R ++ f.path.names) = none) {x : Node} (hx : r.outcome K w₀ R f = some x)
    (hput : Put (R ++ f.path.names) x w w') : r.Grown K w₀ R (done ++ [f]) (done ++ [f]) w' := by
  have hkept : ∀ l, w.fs l ≠ none → w'.fs l = w.fs l := fun l hl => hput.at_ne fun heq => hl (heq ▸ hfree)
  have hdirs : ∀ l, w.fs.isDir l = true → w'.fs.isDir l = true := fun l hl => by
    obtain ⟨m, hm⟩ := FS.isDir_iff.1 hl
    exact FS.isDir_iff.2 ⟨m, by rw [hkept l (by simp [hm]), hm]⟩
  refine ⟨hput.reliable h.reliable, hput.cwd.trans h.cwd, hput.process.trans h.process, ?_, fun l hl => ?_,
    fun l hout => ?_, fun ns y hns hy => ?_, fun g hg hns => ?_, fun g hg pre hpre hne => hdirs _ ?_⟩
  · -- a directory around it, and no directory itself
    rw [hput.fs]
    refine h.inherits.update (by rw [FS.isDir, hfree]) fun ns hns => ?_
    obtain rfl := List.append_cancel_left hns
    have hnamed : f.path.names ≠ [] := by
      intro hnil
      have hdir := h.inherits.isDir
      rw [hnil, List.append_nil] at hfree
      rw [FS.isDir, hfree] at hdir
      cases hdir
    refine ⟨hfull _ (List.dropLast_prefix _) fun heq => ?_, fun m hm => ?_⟩
    · have hlen := congrArg List.length heq
      rw [List.length_dropLast] at hlen
      have hpos := List.length_pos_of_ne_nil hnamed
      omega
    · subst hm
      exact absurd (stands_of_outcome hx) hf
  · have heq := h.kept l hl
    rw [hkept l (by rw [heq]; exact hl), heq]
  · rw [← h.outside l hout]
    exact hput.at_ne fun heq => hout (heq ▸ List.prefix_append R f.path.names)
  · by_cases heq : ns = f.path.names
    · exact .inr ⟨f, by simp, hf, heq⟩
    · rw [hput.at_ne fun h => heq (List.append_cancel_left h)] at hy
      exact h.only ns y hns hy
  · rcases List.mem_append.1 hg with hg | hg
    · obtain ⟨y, hy, hfs⟩ := h.made g hg hns
      exact ⟨y, hy, by rw [hkept _ (by simp [hfs]), hfs]⟩
    · obtain rfl := List.mem_singleton.1 hg
      exact ⟨x, hx, hput.at_self⟩
  · rcases List.mem_append.1 hg with hg | hg
    · exact h.along g hg pre hpre hne
    · obtain rfl := List.mem_singleton.1 hg
      exact hfull pre hpre hne

end Grown

/-! ## A regular file -/

/-- **A regular file** is written where nothing stands exactly when it can be decoded. -/
theorem wp_extractRegular_iff (hrel : w.Reliable) {outDir : Path} {l : Loc} (hres : w.resolve true outDir = .ok l)
    (hfree : w.fs l = none) :
    Act.wp (r.extractRegular K f (f.streamOffset + f.size) outDir (buildBlockRanges r.index.block))
      (fun _ w' => ∃ d, r.decodeEntry K f = .ok d ∧ r.Decodable K f ∧
        Put l (.file d (r.fileMode w.process f) f.timestamp) w w')
      (fun _ _ => ¬ r.Decodable K f) w := by
  refine Act.wp_mono (wp_extractRegular (decoded_decodedBlocks K r r.engine) f outDir w) ?_ ?_
  · rintro _ w' ⟨hl, ⟨hdecode, hdecodable⟩, l', hl', _, hfile⟩
    obtain rfl : l = l' := Except.ok.inj (hres.symm.trans hl')
    refine ⟨_, hdecode, hdecodable, Put.of_leads hl ?_ hfile⟩
    rintro ch ⟨l', hl', _, hloc, _⟩
    rw [hloc]
    exact Except.ok.inj (hl'.symm.trans hres)
  · rintro e w' ⟨_, hbad⟩ hdecodable
    exact hbad ⟨hrel, ⟨l, hres, .inl hfree⟩, hdecodable⟩

/-! ## A link -/

/-- **A link** is made where nothing stands exactly when its target is not empty and leads inside. -/
theorem wp_extractSymlink_iff (hroot : w.Rooted r.root R) {ns : List String} {n : String} (hfull : w.fs.Filled R ns)
    (hfree : w.fs (R ++ (ns ++ [n])) = none) :
    Act.wp (r.extractSymlink f (r.root ++ Path.ofNames (ns ++ [n])))
      (fun _ w' => ∃ t, f.symlinkTarget = some t ∧ t ≠ [] ∧ LeadsInside R (R ++ ns) t ∧
        Put (R ++ (ns ++ [n])) (.link t) w w')
      (fun _ _ => ¬ ∃ t, f.symlinkTarget = some t ∧ t ≠ [] ∧ LeadsInside R (R ++ ns) t) w := by
  have hsplit : r.root ++ Path.ofNames (ns ++ [n]) = (r.root ++ Path.ofNames ns) ++ [.normal n] := by
    rw [Path.ofNames_append, ← List.append_assoc]; rfl
  have hlast : w.resolve false (r.root ++ Path.ofNames (ns ++ [n])) = .ok (R ++ (ns ++ [n])) :=
    FS.resolve_below false hroot.resolves hfull fun _ _ => rfl
  unfold extractSymlink
  cases htarget : f.symlinkTarget with
  | none =>
    rintro ⟨t, ht, _⟩
    cases ht
  | some target =>
    dsimp only
    rw [Act.wp_bind, wp_osCall]
    refine Act.wp_mono (wp_canonicalize_isDir hroot.reliable hroot.resolves hroot.isDir) ?_ fun _ _ h => h.elim
    rintro _ _ ⟨rfl, rfl⟩
    rw [hsplit, Path.parent_snoc_normal, Option.getD_some, ← hsplit, Act.wp_bind, wp_osCall]
    refine Act.wp_mono (wp_canonicalize_isDir hroot.reliable (hfull.resolve hroot.resolves)
      (hfull ns (List.prefix_refl _))) ?_ fun _ _ h => h.elim
    rintro _ _ ⟨rfl, rfl⟩
    split
    · rename_i hinside
      rintro ⟨t, ht, _, hin⟩
      exact hinside (Option.some.inj ht ▸ hin)
    · rename_i hinside
      have hinside : LeadsInside R (R ++ ns) target := not_not.1 hinside
      rw [wp_osCall]
      refine wp_symlink (fun l hl _ hne => ?_) fun e hbad => ?_
      · obtain rfl : R ++ (ns ++ [n]) = l := Except.ok.inj (hlast.symm.trans hl)
        exact ⟨target, rfl, hne, hinside, rfl, rfl, rfl, rfl⟩
      · rintro ⟨t, ht, hne, _⟩
        cases ht
        exact hbad ⟨hroot.reliable, hne, _, hlast, hfree⟩

/-! ## One entry -/

theorem keeps_fresh_safeOutputPath (root relative : Path) : Act.Keeps (w₀.Fresh) (safeOutputPath root relative) :=
  fun _ h => Act.wp_mono (wp_safeOutputPath_keeps keeps_fresh_canonicalize (fun _ p _ => keeps_fresh_createDirAll p) h)
    (fun _ _ h => h.2) fun _ _ h => h

theorem keeps_fresh_createParent (outDir : Path) : Act.Keeps (w₀.Fresh) (createParent outDir) := by
  unfold createParent
  split
  · exact keeps_osCall (keeps_fresh_createDirAll _)
  · exact Act.keeps_pure ()

/-- The names on the way to an entry are filled, and it is extracted there. -/
theorem wp_extractFile_iff (hroot : EmptyRoot w₀ r.root R) (hbeside : ∀ g ∈ done, Beside g.place f.place)
    {ns : List String} {n : String} (hnames : f.path.names = ns ++ [n]) (hsafe : isSafePath f.path = true)
    (h : r.Grown K w₀ R (done ++ [f]) done w) (hfull : w.fs.Filled R ns)
    (hfree : f.ftype ≠ .dir → w.fs (R ++ f.path.names) = none) :
    Act.wp (r.extractFile K f (r.root ++ Path.ofNames (ns ++ [n])) (buildBlockRanges r.index.block))
      (fun _ w' => r.Good K w₀ R f ∧ r.Grown K w₀ R (done ++ [f]) (done ++ [f]) w')
      (fun _ _ => ¬ r.Good K w₀ R f) w := by
  have hnamed : f.path.names ≠ [] := by simp [hnames]
  have hlink : f.path.names.dropLast = ns := by simp [hnames]
  unfold extractFile
  rw [Act.wp_bind]
  refine (Act.wp_lift _).2 ⟨fun fileEnd hcheck => ?_, fun e he hgood => ?_⟩
  swap
  · rw [checkEntry_ok.2 ⟨hgood.size, hgood.range, rfl⟩] at he
    cases he
  obtain ⟨hsize, hrange, rfl⟩ := checkEntry_ok.1 (Except.mapError_eq_ok.1 hcheck)
  have hrooted := h.rooted hroot
  rw [Act.wp_bind]
  refine Act.wp_mono (Act.wp_and (wp_createParent (P := DirAlong R ns) hrooted hfull)
    (keeps_fresh_createParent _ w (Fresh.refl w))) ?_ fun _ _ h => h.1.elim
  rintro _ w₁ ⟨⟨hl, hfs⟩, hfresh⟩
  have h₁ := h.addDirs (List.Subset.refl _) (by simp) (hnames ▸ List.prefix_append ns [n]) hl hfresh
  have hrooted₁ := h₁.rooted hroot
  have hfull₁ : w₁.fs.Filled R ns := by rw [hfs]; exact hfull
  have hfree₁ : f.ftype ≠ .dir → w₁.fs (R ++ (ns ++ [n])) = none := by
    rw [hfs, ← hnames]; exact hfree
  have halong : ∀ pre, pre <+: f.path.names → pre ≠ f.path.names → w₁.fs.isDir (R ++ pre) = true := by
    intro pre hpre hne
    rw [hnames] at hpre hne
    exact hfull₁ pre ((List.prefix_concat_iff.1 hpre).resolve_left hne)
  cases hf : f.ftype with
  | dir =>
    dsimp only
    have hself : ∀ g ∈ done ++ [f], Beside g.place f.place := fun g hg => by
      rcases List.mem_append.1 hg with hg | hg
      · exact hbeside g hg
      · rw [List.mem_singleton.1 hg]
        exact ⟨fun hd => absurd hf hd, fun hd => absurd hf hd⟩
    have hclean := h₁.clean hroot hself
    rw [wp_osCall, ← hnames]
    refine Act.wp_mono (Act.wp_and (wp_createDirAll hrooted₁ hclean)
      (keeps_fresh_createDirAll _ w₁ (Fresh.refl w₁))) ?_ fun _ _ h => h.1.elim
    rintro _ w₂ ⟨⟨hl₂, hfull₂⟩, hfresh₂⟩
    refine ⟨⟨hsafe, hsize, hrange, fun hnil => absurd hnil hnamed, ?_, ?_⟩, ?_⟩
    · exact fun hs => by rw [hf] at hs; cases hs
    · exact fun hs => by rw [hf] at hs; cases hs
    · have h₂ := h₁.addDirs (List.Subset.refl _) (by simp) (List.prefix_refl _) hl₂ hfresh₂
      exact h₂.doneDir hbeside hf hfull₂
  | symlink =>
    have hnot : f.ftype ≠ .dir := by simp [hf]
    refine Act.wp_mono (wp_extractSymlink_iff hrooted₁ hfull₁ (hfree₁ hnot)) ?_ ?_
    · rintro _ w₂ ⟨t, ht, hne, hinside, hput⟩
      refine ⟨⟨hsafe, hsize, hrange, fun hnil => absurd hnil hnamed, ?_, ?_⟩, ?_⟩
      · exact fun _ => ⟨t, ht, hne, hlink.symm ▸ hinside⟩
      · exact fun hs => by rw [hf] at hs; cases hs
      · rw [← hnames] at hput hfree₁
        exact h₁.donePut hnot halong (hfree₁ hnot) (by rw [outcome, hf, ht]; rfl) hput
    · exact fun _ _ hbad hgood => hbad (hlink ▸ hgood.link hf)
  | file =>
    have hnot : f.ftype ≠ .dir := by simp [hf]
    have hres : w₁.resolve true (r.root ++ Path.ofNames (ns ++ [n])) = .ok (R ++ (ns ++ [n])) :=
      FS.resolve_below true hrooted₁.resolves hfull₁ fun t ht => by rw [hfree₁ hnot] at ht; cases ht
    refine Act.wp_mono (wp_extractRegular_iff hrooted₁.reliable hres (hfree₁ hnot)) ?_ ?_
    · rintro _ w₂ ⟨d, hd, hdecodable, hput⟩
      refine ⟨⟨hsafe, hsize, hrange, fun hnil => absurd hnil hnamed, ?_, fun _ => hdecodable⟩, ?_⟩
      · exact fun hs => by rw [hf] at hs; cases hs
      · rw [← hnames] at hput hfree₁
        exact h₁.donePut hnot halong (hfree₁ hnot) (by rw [outcome, hf, hd, ← h₁.process]; rfl) hput
    · exact fun _ _ hbad hgood => hbad (hgood.file hf)

/-! ## An entry without a name -/

/-- A parent of the output root is the directory it was. -/
theorem Grown.parent (h : r.Grown K w₀ R seen done w) (hroot : EmptyRoot w₀ r.root R) {p : Path}
    (hp : r.root.parent = some p) (hne : p ≠ []) :
    ∃ d, w₀.resolve true p = .ok d ∧ w.resolve true p = .ok d ∧ w.fs.isDir d = true := by
  obtain ⟨d, hd, hdir⟩ := parent_isDir hp hne hroot.resolves
  obtain ⟨m, hm⟩ := FS.isDir_iff.1 hdir
  refine ⟨d, hd, ?_, FS.isDir_iff.2 ⟨m, by rw [h.kept d (by simp [hm]), hm]⟩⟩
  unfold World.resolve
  rw [h.cwd]
  exact FS.resolve_kept h.kept hd (by simp [hm])

/-- Making a directory that is there. -/
theorem wp_createDirAll_still (h : r.Grown K w₀ R seen done w) (hf : f ∈ seen) {p : Path} {l : Loc}
    (hp : w.resolve true p = .ok l) (hl : w.fs.isDir l = true) {e : CryoErrors} :
    Act.wp (osCall e (createDirAll p)) (fun _ w' => r.Grown K w₀ R seen done w') (fun _ _ => False) w := by
  rw [wp_osCall]
  refine Act.wp_mono (Act.wp_and (wp_createDirAll_isDir h.reliable hp hl (DirAlong R []))
    (keeps_fresh_createDirAll p w (Fresh.refl w))) ?_ fun _ _ h => h.1.elim
  rintro _ w' ⟨⟨hleads, _⟩, hfresh⟩
  exact h.addDirs (List.Subset.refl _) hf List.nil_prefix hleads hfresh

theorem Grown.tick (h : r.Grown K w₀ R seen done w) : r.Grown K w₀ R seen done w.tick :=
  ⟨h.reliable, h.cwd, h.process, h.inherits, h.kept, h.outside, h.only, h.made, h.along⟩

theorem wp_safeOutputPath_root (hroot : EmptyRoot w₀ r.root R) (h : r.Grown K w₀ R seen done w) (hf : f ∈ seen)
    (hsafe : isSafePath f.path = true) (hnil : f.path.names = []) :
    Act.wp (safeOutputPath r.root f.path)
      (fun outDir w' => outDir = r.root ∧ r.SelfBelow w₀ R ∧ r.Grown K w₀ R seen done w')
      (fun _ _ => ¬ r.SelfBelow w₀ R) w := by
  have hrooted := h.rooted hroot
  have hne : r.root ≠ [] := by
    intro hnone
    have hres := hroot.resolves
    rw [hnone] at hres
    cases hres
  have hjoin : r.root.join f.path = r.root := by
    rw [join_safe hne hsafe, hnil, Path.ofNames, List.map_nil, List.append_nil]
  unfold safeOutputPath
  rw [if_neg (by simp [hsafe]), hjoin, Act.wp_bind, wp_osCall]
  refine Act.wp_mono (wp_canonicalize_isDir hrooted.reliable hrooted.resolves hrooted.isDir) ?_ fun _ _ h => h.elim
  rintro _ _ ⟨rfl, rfl⟩
  cases hp : r.root.parent with
  | none =>
    refine ⟨rfl, fun p hp' => ?_, h.tick⟩
    rw [hp] at hp'
    cases hp'
  | some p =>
    dsimp only
    by_cases hempty : p = []
    · -- the empty path leads nowhere
      subst hempty
      rw [createDirAll_nil, Act.wp_bind, wp_osCall, Act.wp_pure, Act.wp_bind, wp_osCall]
      refine wp_canonicalize (fun l hl _ => by cases hl) fun _ _ hself => ?_
      obtain ⟨d, hd, _⟩ := hself [] hp
      cases hd
    · obtain ⟨d, hd, hres, hdir⟩ := h.tick.parent hroot hp hempty
      rw [Act.wp_bind]
      refine Act.wp_mono (wp_createDirAll_still h.tick hf hres hdir) ?_ fun _ _ h => h.elim
      rintro _ w₁ h₁
      obtain ⟨d', hd', hres₁, hdir₁⟩ := h₁.parent hroot hp hempty
      obtain rfl : d = d' := Except.ok.inj (hd.symm.trans hd')
      rw [Act.wp_bind, wp_osCall]
      refine Act.wp_mono (wp_canonicalize_isDir h₁.reliable hres₁ hdir₁) ?_ fun _ _ h => h.elim
      rintro _ _ ⟨rfl, rfl⟩
      split
      · rename_i hout
        intro hself
        obtain ⟨d', hd', hpre⟩ := hself p hp
        obtain rfl : d = d' := Except.ok.inj (hd.symm.trans hd')
        exact hout (Path.startsWith_ofLoc.2 hpre)
      · rename_i hin
        refine ⟨rfl, fun q hq => ?_, h₁.tick⟩
        obtain rfl : p = q := Option.some.inj (hp.symm.trans hq)
        exact ⟨d, hd, Path.startsWith_ofLoc.1 (not_not.1 hin)⟩

/-- An entry without a name leaves nothing of its own. -/
theorem Grown.addUnnamed (h : r.Grown K w₀ R (done ++ [f]) done w) (hnil : f.path.names = []) :
    r.Grown K w₀ R (done ++ [f]) (done ++ [f]) w where
  __ := h
  made g hg hns := by
    rcases List.mem_append.1 hg with hg | hg
    · exact h.made g hg hns
    · rw [List.mem_singleton.1 hg] at hns
      exact absurd hnil hns
  along g hg pre hpre hne := by
    rcases List.mem_append.1 hg with hg | hg
    · exact h.along g hg pre hpre hne
    · rw [List.mem_singleton.1 hg, hnil] at hpre hne
      exact absurd (List.prefix_nil.1 hpre) hne

/-- The parent of the root stands, so making it makes nothing. -/
theorem wp_createParent_root (hroot : EmptyRoot w₀ r.root R) (h : r.Grown K w₀ R (done ++ [f]) done w)
    (hself : r.SelfBelow w₀ R) :
    Act.wp (createParent r.root) (fun _ w' => r.Grown K w₀ R (done ++ [f]) done w') (fun _ _ => False) w := by
  unfold createParent
  cases hp : r.root.parent with
  | none => exact h
  | some p =>
    have hne : p ≠ [] := by
      rintro rfl
      obtain ⟨d, hd, _⟩ := hself [] hp
      cases hd
    obtain ⟨d, _, hres, hdir⟩ := h.parent hroot hp hne
    exact wp_createDirAll_still (f := f) h (by simp) hres hdir

/-- **An entry without a name** is extracted exactly when it is a directory and the root lies below its own parent. -/
theorem wp_extractEntry_root (hroot : EmptyRoot w₀ r.root R) (h : r.Grown K w₀ R done done w)
    (hsafe : isSafePath f.path = true) (hnil : f.path.names = []) :
    Act.wp (r.extractEntry K (buildBlockRanges r.index.block) f)
      (fun _ w' => r.Good K w₀ R f ∧ r.Grown K w₀ R (done ++ [f]) (done ++ [f]) w')
      (fun _ _ => ¬ r.Good K w₀ R f) w := by
  have hseen : r.Grown K w₀ R (done ++ [f]) done w :=
    h.addDirs (f := f) (by simp) (by simp) List.nil_prefix (Leads.refl (DirAlong R []) w) (Fresh.refl w)
  unfold extractEntry
  rw [Act.wp_bind]
  refine Act.wp_mono (wp_safeOutputPath_root hroot hseen (by simp) hsafe hnil) ?_
    fun _ _ hbad hgood => hbad (hgood.named hnil).2
  rintro _ w₁ ⟨rfl, hself, h₁⟩
  unfold extractFile
  rw [Act.wp_bind]
  refine (Act.wp_lift _).2 ⟨fun fileEnd hcheck => ?_, fun e he hgood => ?_⟩
  swap
  · rw [checkEntry_ok.2 ⟨hgood.size, hgood.range, rfl⟩] at he
    cases he
  obtain ⟨hsize, hrange, rfl⟩ := checkEntry_ok.1 (Except.mapError_eq_ok.1 hcheck)
  rw [Act.wp_bind]
  refine Act.wp_mono (wp_createParent_root hroot h₁ hself) ?_ fun _ _ h => h.elim
  rintro _ w₂ h₂
  have hrooted := h₂.rooted hroot
  obtain ⟨m, hm⟩ := FS.isDir_iff.1 hrooted.isDir
  cases hf : f.ftype with
  | dir =>
    refine Act.wp_mono (wp_createDirAll_still (f := f) h₂ (by simp) hrooted.resolves hrooted.isDir) ?_
      fun _ _ h => h.elim
    rintro _ w₃ h₃
    refine ⟨⟨hsafe, hsize, hrange, fun _ => ⟨hf, hself⟩, ?_, ?_⟩, h₃.addUnnamed hnil⟩
    · exact fun hs => by rw [hf] at hs; cases hs
    · exact fun hs => by rw [hf] at hs; cases hs
  | symlink =>
    have hbad : ¬ r.Good K w₀ R f := fun hgood => by
      have := (hgood.named hnil).1
      rw [hf] at this
      cases this
    -- something stands at the root, so no link is made there
    obtain ⟨l, hl, hsome⟩ := FS.resolve_noFollow hrooted.resolves (by simp [hm])
    unfold extractSymlink
    cases f.symlinkTarget with
    | none => exact hbad
    | some target =>
      dsimp only
      rw [Act.wp_bind, wp_osCall]
      refine wp_canonicalize (fun _ _ _ => ?_) fun _ _ => hbad
      rw [Act.wp_bind, wp_osCall]
      refine wp_canonicalize (fun _ _ _ => ?_) fun _ _ => hbad
      split
      · exact hbad
      · rw [wp_osCall]
        refine wp_symlink (fun l' hl' hnone _ => ?_) fun _ _ => hbad
        obtain rfl : l = l' := Except.ok.inj (hl.symm.trans hl')
        exact absurd hnone hsome
  | file =>
    have hbad : ¬ r.Good K w₀ R f := fun hgood => by
      have := (hgood.named hnil).1
      rw [hf] at this
      cases this
    unfold extractRegular
    rw [Act.wp_bind, wp_osCall]
    refine wp_createFile (fun l _ hl hkind => ?_) fun _ _ => hbad
    obtain rfl : R = l := Except.ok.inj (hrooted.resolves.symm.trans hl)
    rcases hkind with hnone | ⟨_, _, _, hfile⟩
    · rw [hm] at hnone; cases hnone
    · rw [hm] at hfile; cases hfile

/-! ## All entries -/

/-- **One entry** beside the others is extracted exactly when it is good. -/
theorem wp_extractEntry_iff (hroot : EmptyRoot w₀ r.root R) (hbeside : ∀ g ∈ done, Beside g.place f.place)
    (h : r.Grown K w₀ R done done w) :
    Act.wp (r.extractEntry K (buildBlockRanges r.index.block) f)
      (fun _ w' => r.Good K w₀ R f ∧ r.Grown K w₀ R (done ++ [f]) (done ++ [f]) w')
      (fun _ _ => ¬ r.Good K w₀ R f) w := by
  by_cases hsafe : isSafePath f.path = true
  swap
  · unfold extractEntry safeOutputPath
    rw [if_pos hsafe]
    exact fun hgood => hsafe hgood.safe
  rcases List.eq_nil_or_concat' f.path.names with hnil | ⟨ns, n, hnames⟩
  · exact wp_extractEntry_root hroot h hsafe hnil
  have hpre : ns <+: f.path.names := hnames ▸ List.prefix_append ns [n]
  have hrooted := h.rooted hroot
  have hclean := (h.clean hroot hbeside).upto hpre
  unfold extractEntry
  rw [Act.wp_bind]
  refine Act.wp_mono (Act.wp_and (wp_safeOutputPath hrooted hsafe hnames hclean)
    (keeps_fresh_safeOutputPath r.root f.path w (Fresh.refl w))) ?_ fun _ _ h => h.1.elim
  rintro outDir w₁ ⟨⟨rfl, hl, hfull⟩, hfresh⟩
  refine wp_extractFile_iff hroot hbeside hnames hsafe (h.addDirs (by simp) (by simp) hpre hl hfresh) hfull fun hf => ?_
  rw [hl.frame, h.free hbeside hf (by simp [hnames])]
  rintro ch ⟨pre, m, hpre', rfl⟩ heq
  have hlen := hpre'.length_le
  rw [List.append_cancel_left heq, hnames, List.length_append] at hlen
  simp at hlen

theorem wp_extractEntries_iff (hroot : EmptyRoot w₀ r.root R) : ∀ (files done : List FileEntry) {w : World},
    (done ++ files).Pairwise (fun f g => Beside f.place g.place) → r.Grown K w₀ R done done w →
    Act.wp (r.extractEntries K (buildBlockRanges r.index.block) files)
      (fun _ w' => (∀ f ∈ files, r.Good K w₀ R f) ∧ r.Grown K w₀ R (done ++ files) (done ++ files) w')
      (fun _ _ => ¬ ∀ f ∈ files, r.Good K w₀ R f) w
  | [], done, w, _, h => by
    rw [List.append_nil]
    exact ⟨by simp, h⟩
  | f :: files, done, w, hbeside, h => by
    have hf : ∀ g ∈ done, Beside g.place f.place := fun g hg =>
      (List.pairwise_append.1 hbeside).2.2 g hg f List.mem_cons_self
    rw [extractEntries, Act.wp_bind]
    refine Act.wp_mono (wp_extractEntry_iff hroot hf h) ?_ fun _ _ hbad hgood => hbad (hgood f List.mem_cons_self)
    rintro _ w₁ ⟨hgood, h₁⟩
    have hsplit : done ++ f :: files = (done ++ [f]) ++ files := by simp
    rw [hsplit] at hbeside ⊢
    refine Act.wp_mono (wp_extractEntries_iff hroot files (done ++ [f]) hbeside h₁) ?_ ?_
    · rintro _ _ ⟨hall, h₂⟩
      exact ⟨List.forall_mem_cons.2 ⟨hgood, hall⟩, h₂⟩
    · exact fun _ _ hbad hall => hbad (List.forall_mem_cons.1 hall).2

/-- Where an extraction starts after its root was made. -/
structure Started (w : World) (root : Path) (R : Loc) (w₀ : World) : Prop where
  run : osCall .writeError (createDirAll root) w = (.ok (), w₀)
  root : EmptyRoot w₀ root R
  reliable : w₀.Reliable
  fresh : w.Fresh w₀

/-- The root of an extraction into an empty directory is made. -/
theorem exists_started {root : Path} (h : w.Vacant root R) : ∃ w₀, Started w root R w₀ := by
  have hwp : Act.wp (osCall .writeError (createDirAll root))
      (fun _ w' => (w'.Rooted root R ∧ ∀ ns, ns ≠ [] → w'.fs (R ++ ns) = none) ∧ w.Fresh w')
      (fun _ w' => False ∧ w.Fresh w') w := by
    rw [wp_osCall]
    exact Act.wp_and (wp_createDirAll_vacant h) (keeps_fresh_createDirAll root w (Fresh.refl w))
  obtain ⟨_, w₀, hrun, ⟨hrooted, hempty⟩, hfresh⟩ := Act.exists_ok (Act.wp_mono hwp (fun _ _ h => h) fun _ _ h => h.1)
  exact ⟨w₀, hrun, ⟨hrooted.resolves, hrooted.isDir, hempty⟩, hrooted.reliable, hfresh⟩

/-- **Entries that stand beside each other are all extracted** exactly when all of them are good. -/
theorem wp_handleFiles_iff (hstart : Started w r.root R w₀)
    (hbeside : (r.index.files.map FileEntry.place).Pairwise Beside) :
    Act.wp (r.handleFiles K)
      (fun _ w' => (∀ f ∈ r.index.files, r.Good K w₀ R f) ∧ r.Grown K w₀ R r.index.files r.index.files w')
      (fun _ _ => ¬ ∀ f ∈ r.index.files, r.Good K w₀ R f) w := by
  obtain ⟨hrun, hroot, hrel, _⟩ := hstart
  unfold handleFiles Act.wp
  rw [Act.bind_of_ok hrun]
  exact wp_extractEntries_iff hroot r.index.files [] (List.pairwise_map.1 hbeside) (Grown.start hroot hrel)

/-! ## Entries in each other's way -/

variable {g : FileEntry}

/-- The outcome of a regular file is one. -/
theorem outcome_file {x : Node} (hg : g.ftype = .file) (h : r.outcome K w₀ R g = some x) :
    ∃ d m t, x = .file d m t := by
  rw [outcome, hg] at h
  obtain ⟨d, _, rfl⟩ := Option.map_eq_some_iff.1 h
  exact ⟨d, _, _, rfl⟩

/-- **Below a regular file nothing is extracted.** -/
theorem wp_extractEntry_below (hroot : EmptyRoot w₀ r.root R) (h : r.Grown K w₀ R done done w) (hg : g ∈ done)
    (hfile : g.ftype = .file) (hnamed : g.path.names ≠ []) (hpre : g.path.names <+: f.path.names)
    (hne : g.path.names ≠ f.path.names) :
    Act.wp (r.extractEntry K (buildBlockRanges r.index.block) f) (fun _ _ => False) (fun _ _ => True) w := by
  obtain ⟨ps, m, hps⟩ := (List.eq_nil_or_concat' g.path.names).resolve_left hnamed
  obtain ⟨ns, n, hns⟩ := (List.eq_nil_or_concat' f.path.names).resolve_left fun hnil => by
    rw [hnil] at hpre
    exact hnamed (List.prefix_nil.1 hpre)
  rw [hns] at hpre hne
  obtain ⟨ks, hks⟩ := (List.prefix_concat_iff.1 hpre).resolve_left hne
  obtain ⟨x, hx, hfs⟩ := h.made g hg hnamed
  obtain ⟨d, mode, t, rfl⟩ := outcome_file hfile hx
  have hrooted := h.rooted hroot
  have hfull : w.fs.Filled R ps := fun pre hpre' => by
    refine h.along g hg pre (hps ▸ hpre'.trans (List.prefix_append ps [m])) fun heq => ?_
    have := hpre'.length_le
    rw [heq, hps] at this
    simp at this
  have hres : w.resolve true (r.root ++ Path.ofNames ps ++ [.normal m]) = .ok (R ++ g.path.names) := by
    rw [List.append_assoc, hps]
    refine (congrArg (w.resolve true) ?_).trans (FS.resolve_below true hrooted.resolves hfull fun t' ht => ?_)
    · rw [Path.ofNames_append]
      rfl
    · rw [← hps, hfs] at ht
      cases ht
  have hroot' : r.root ≠ [] := by
    intro hnil
    have hresolves := hrooted.resolves
    rw [hnil] at hresolves
    cases hresolves
  unfold extractEntry safeOutputPath
  rw [Act.wp_bind]
  split
  · trivial
  · rename_i hsafe
    have hjoin : r.root.join f.path = (r.root ++ Path.ofNames ns) ++ [.normal n] := by
      rw [join_safe hroot' (not_not.1 hsafe), hns, Path.ofNames_append, ← List.append_assoc]
      rfl
    have hparent : r.root ++ Path.ofNames ns = r.root ++ Path.ofNames ps ++ [.normal m] ++ Path.ofNames ks := by
      rw [← hks, hps, Path.ofNames_append, Path.ofNames_append]
      simp [Path.ofNames]
    rw [hjoin]
    dsimp only
    rw [Path.parent_snoc_normal, Act.wp_bind, wp_osCall]
    refine wp_canonicalize (fun _ _ _ => ?_) fun _ _ => trivial
    dsimp only
    rw [Act.wp_bind, wp_osCall, hparent]
    refine Act.wp_mono (wp_createDirAll_blocked (w := w.tick) hres ?_ ?_ ks) (fun _ _ h => h.elim) fun _ _ _ => trivial
    · rw [World.tick_fs, FS.isDir, hfs]
    · rw [World.tick_fs, hfs]
      simp

/-- **A regular file is not written where a directory stands.** -/
theorem wp_extractEntry_above (hroot : EmptyRoot w₀ r.root R) (h : r.Grown K w₀ R done done w) (hg : g ∈ done)
    (hfile : f.ftype = .file) (hnamed : f.path.names ≠ []) (hpre : f.path.names <+: g.path.names)
    (hne : f.path.names ≠ g.path.names) :
    Act.wp (r.extractEntry K (buildBlockRanges r.index.block) f) (fun _ _ => False) (fun _ _ => True) w := by
  obtain ⟨ns, n, hns⟩ := (List.eq_nil_or_concat' f.path.names).resolve_left hnamed
  have hrooted := h.rooted hroot
  have hdir : ∀ pre, pre <+: f.path.names → w.fs.isDir (R ++ pre) = true := fun pre hpre' =>
    h.along g hg pre (hpre'.trans hpre) fun heq => hne (hpre.eq_of_length_le (heq ▸ hpre'.length_le))
  have hfull : w.fs.Filled R ns := fun pre hpre' => hdir pre (hns ▸ hpre'.trans (List.prefix_append ns [n]))
  by_cases hsafe : isSafePath f.path = true
  swap
  · unfold extractEntry safeOutputPath
    rw [if_pos hsafe]
    trivial
  unfold extractEntry
  rw [Act.wp_bind]
  refine Act.wp_mono (Act.wp_and (wp_safeOutputPath hrooted hsafe hns hfull.clean)
    (keeps_fresh_safeOutputPath r.root f.path w (Fresh.refl w))) ?_ fun _ _ _ => trivial
  rintro outDir w₁ ⟨⟨rfl, hl, hfull₁⟩, hfresh⟩
  have hrooted₁ := hrooted.grows hl (DirAlong.grows hfull.clean hl).1
  unfold extractFile
  rw [Act.wp_bind]
  refine (Act.wp_lift _).2 ⟨fun fileEnd _ => ?_, fun _ _ => trivial⟩
  rw [Act.wp_bind]
  refine Act.wp_mono (wp_createParent (P := fun _ => False) hrooted₁ hfull₁) ?_ fun _ _ _ => trivial
  rintro _ w₂ ⟨hl₂, hfs⟩
  have hdir₂ : w₂.fs.isDir (R ++ (ns ++ [n])) = true := by
    obtain ⟨m, hm⟩ := FS.isDir_iff.1 (hdir _ (List.prefix_refl _))
    rw [← hns, hfs]
    exact FS.isDir_iff.2 ⟨m, by rw [hfresh.kept (by simp [hm]), hm]⟩
  have hres₂ : w₂.resolve true (r.root ++ Path.ofNames (ns ++ [n])) = .ok (R ++ (ns ++ [n])) := by
    unfold World.resolve
    rw [hl₂.cwd, hfs]
    refine FS.resolve_below true hrooted₁.resolves hfull₁ fun t ht => ?_
    rw [hfs, FS.isDir, ht] at hdir₂
    cases hdir₂
  rw [hfile]
  dsimp only
  unfold extractRegular
  rw [Act.wp_bind, wp_osCall]
  refine wp_createFile (fun l _ hl' hkind => ?_) fun _ _ => trivial
  obtain rfl : R ++ (ns ++ [n]) = l := Except.ok.inj (hres₂.symm.trans hl')
  rcases hkind with hnone | ⟨_, _, _, hnode⟩
  · rw [FS.isDir, hnone] at hdir₂
    cases hdir₂
  · rw [FS.isDir, hnode] at hdir₂
    cases hdir₂

theorem extractEntries_append (blocks : List (Nat × Nat)) : ∀ as bs : List FileEntry,
    r.extractEntries K blocks (as ++ bs) = (do
      r.extractEntries K blocks as
      r.extractEntries K blocks bs)
  | [], bs => by simp [extractEntries]
  | a :: as, bs => by simp [extractEntries, extractEntries_append blocks as bs]

/-- Where a relation fails in a list for the first time. -/
theorem exists_first {α : Type} {S : α → α → Prop} {l : List α} (h : ¬ l.Pairwise S) :
    ∃ done a rest, l = done ++ a :: rest ∧ done.Pairwise S ∧ ∃ b ∈ done, ¬ S b a := by
  induction l using List.reverseRecOn with
  | nil => exact absurd .nil h
  | append_singleton l a ih =>
    by_cases hl : l.Pairwise S
    · have hnot : ¬ ∀ b ∈ l, S b a := fun hall =>
        h (List.pairwise_append.2 ⟨hl, by simp, fun b hb c hc => List.mem_singleton.1 hc ▸ hall b hb⟩)
      push Not at hnot
      exact ⟨l, a, [], rfl, hl, hnot⟩
    · obtain ⟨done, b, rest, rfl, hdone, hb⟩ := ih hl
      exact ⟨done, b, rest ++ [a], by simp, hdone, hb⟩

/-- **Entries of which one stands below a regular file** are not all extracted, when none stands below a link. -/
theorem handleFiles_blocked (hvacant : w.Vacant r.root R) (hnamed : ∀ f ∈ r.index.files, f.path.names ≠ [])
    (hdistinct : (r.index.files.map fun f => f.path.names).Nodup)
    (hlink : ∀ f ∈ r.index.files, f.ftype = .symlink → ∀ g ∈ r.index.files, f.path.names <+: g.path.names →
      f.path.names = g.path.names)
    (hbeside : ¬ (r.index.files.map FileEntry.place).Pairwise Beside) : r.handleFiles K w ≠ (.ok (), w') := by
  intro hok
  obtain ⟨w₀, hrun, hroot, hrel, _⟩ := exists_started hvacant
  rw [List.pairwise_map] at hbeside
  obtain ⟨done, f, rest, hfiles, hdone, g, hg, hclash⟩ := exists_first hbeside
  have hgmem : g ∈ r.index.files := by rw [hfiles]; exact List.mem_append_left _ hg
  have hfmem : f ∈ r.index.files := by rw [hfiles]; simp
  have hne : g.path.names ≠ f.path.names := by
    rw [hfiles, List.map_append, List.nodup_append] at hdistinct
    exact hdistinct.2.2 _ (List.mem_map_of_mem hg) _ (by simp)
  -- the first entry in the way of another fails
  have hfails : ∀ w₁, r.Grown K w₀ R done done w₁ →
      Act.wp (r.extractEntry K (buildBlockRanges r.index.block) f) (fun _ _ => False) (fun _ _ => True) w₁ := by
    intro w₁ h₁
    by_cases hbelow : g.ftype ≠ .dir ∧ g.path.names <+: f.path.names
    · obtain ⟨hdir, hpre⟩ := hbelow
      cases hft : g.ftype with
      | dir => exact absurd hft hdir
      | symlink => exact absurd (hlink g hgmem hft f hfmem hpre) hne
      | file => exact wp_extractEntry_below hroot h₁ hg hft (hnamed g hgmem) hpre hne
    · have habove : f.ftype ≠ .dir ∧ f.path.names <+: g.path.names := by
        by_contra hnot
        exact hclash ⟨fun hdir hpre => hbelow ⟨hdir, hpre⟩, fun hdir hpre => hnot ⟨hdir, hpre⟩⟩
      obtain ⟨hdir, hpre⟩ := habove
      cases hft : f.ftype with
      | dir => exact absurd hft hdir
      | symlink => exact absurd (hlink f hfmem hft g hgmem hpre).symm hne
      | file => exact wp_extractEntry_above hroot h₁ hg hft (hnamed f hfmem) hpre hne.symm
  have hwp : Act.wp (r.handleFiles K) (fun _ _ => False) (fun _ _ => True) w := by
    unfold handleFiles Act.wp
    rw [Act.bind_of_ok hrun, hfiles, extractEntries_append]
    show Act.wp _ _ _ w₀
    rw [Act.wp_bind]
    refine Act.wp_mono (wp_extractEntries_iff hroot done [] (by simpa using hdone) (Grown.start hroot hrel)) ?_
      fun _ _ _ => trivial
    rintro _ w₁ ⟨_, h₁⟩
    rw [extractEntries, Act.wp_bind]
    exact Act.wp_mono (hfails w₁ h₁) (fun _ _ h => h.elim) fun _ _ _ => trivial
  exact (Act.of_wp hwp).1 () hok

end ArchiveReader

end Cryo
