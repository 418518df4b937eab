import Cryo.Lib.FsCalls
import Mathlib.Data.List.Induction

/-!
# Making directories along a path

Below a directory that `root` leads to, names lead where they say as long as directories stand along them
(`resolve_below`); where one is missing the path does not resolve (`resolve_below_missing`). So `createDirAll` succeeds
along names where nothing but directories stands, and makes directories there and nowhere else (`wp_createDirAll`);
`Vacant` is a root that `createDirAll` turns into an empty directory (`wp_createDirAll_vacant`).
-/

namespace Posix

namespace FS

variable {fs fs' : FS} {R : Loc} {ns : List String}

/-- Nothing but directories stands along `ns` below `R`. -/
def Clean (fs : FS) (R : Loc) (ns : List String) : Prop :=
  ∀ pre, pre <+: ns → fs (R ++ pre) = none ∨ fs.isDir (R ++ pre) = true

/-- Directories stand all along `ns` below `R`. -/
def Filled (fs : FS) (R : Loc) (ns : List String) : Prop := ∀ pre, pre <+: ns → fs.isDir (R ++ pre) = true

theorem Filled.clean (h : fs.Filled R ns) : fs.Clean R ns := fun pre hpre => .inr (h pre hpre)

theorem Clean.upto {ms : List String} (h : fs.Clean R ns) (hms : ms <+: ns) : fs.Clean R ms :=
  fun pre hpre => h pre (hpre.trans hms)

theorem Filled.snoc {n : String} (h : fs.Filled R ns) (hn : fs.isDir (R ++ (ns ++ [n])) = true) :
    fs.Filled R (ns ++ [n]) := by
  intro pre hpre
  rcases List.prefix_concat_iff.1 hpre with rfl | hpre
  · exact hn
  · exact h pre hpre

/-- A missing directory along clean names. -/
theorem Clean.missing (h : fs.Clean R ns) (hnot : ¬ fs.Filled R ns) : ∃ pre, pre <+: ns ∧ fs (R ++ pre) = none := by
  by_contra hno
  refine hnot fun pre hpre => ?_
  rcases h pre hpre with hnone | hdir
  · exact absurd ⟨pre, hpre, hnone⟩ hno
  · exact hdir

/-- Names do not resolve behind a missing directory. -/
theorem walk_names_missing {fl : Bool} {links : Nat} : ∀ {ns : List String} {cur : Loc} {pre : List String},
    fs.isDir cur = true → fs.Clean cur ns → pre <+: ns → pre ≠ ns → fs (cur ++ pre) = none →
    fs.walk fl links cur (Path.ofNames ns) = .error .noent
  | [], _, pre, _, _, hpre, hne, _ => absurd (List.prefix_nil.1 hpre) hne
  | n :: ns, cur, [], hcur, _, _, _, hnone => by
    rw [List.append_nil] at hnone
    rw [isDir, hnone] at hcur
    cases hcur
  | n :: ns, cur, m :: pre, hcur, hclean, hpre, hne, hnone => by
    obtain ⟨rfl, hpre'⟩ := List.cons_prefix_cons.1 hpre
    show fs.walk fl links cur (.normal m :: Path.ofNames ns) = _
    rcases hclean [m] ((List.prefix_cons_inj m).2 List.nil_prefix) with hm | hm
    · rw [walk_missing hcur hm, if_neg]
      intro hns
      obtain rfl : ns = [] := List.map_eq_nil_iff.1 hns
      exact hne (congrArg (m :: ·) (List.prefix_nil.1 hpre'))
    · obtain ⟨mode, hmode⟩ := isDir_iff.1 hm
      rw [walk_plain hcur hmode (by simp)]
      refine walk_names_missing hm (fun q hq => ?_) hpre' (fun h => hne (congrArg (m :: ·) h)) (by simpa using hnone)
      rw [List.append_assoc, List.singleton_append]
      exact hclean (m :: q) ((List.prefix_cons_inj m).2 hq)

/-- A resolution has no more links left than it started with. -/
theorem walk_links_le {fl : Bool} : ∀ (links : Nat) (cur : Loc) (p : Path) {r : Loc × Nat},
    fs.walk fl links cur p = .ok r → r.2 ≤ links := by
  apply walk_rule
  case nil => intro links cur r h; rw [walk_nil] at h; cases h; exact Nat.le_refl _
  case rootDir => intro links cur cs ih r h; rw [walk_rootDir] at h; exact ih h
  case curDir =>
    intro links cur cs ih r h
    rw [walk_curDir] at h
    split at h
    · exact ih h
    · cases h
  case parentDir =>
    intro links cur cs ih r h
    rw [walk_parentDir] at h
    split at h
    · exact ih h
    · cases h
  case normal =>
    intro links cur n cs ih ihj r h
    cases hd : fs.isDir cur with
    | false => rw [walk_notDir hd] at h; cases h
    | true =>
      cases hn : fs (cur ++ [n]) with
      | none =>
        rw [walk_missing hd hn] at h
        split at h
        · cases h; exact Nat.le_refl _
        · cases h
      | some x =>
        by_cases hx : ∃ t, x = .link t
        · obtain ⟨t, rfl⟩ := hx
          rw [walk_link hd hn] at h
          split at h
          · cases h; exact Nat.le_refl _
          · cases links with
            | zero => cases h
            | succ k => exact Nat.le_succ_of_le (ihj k rfl t h)
        · rw [walk_plain hd hn fun t ht => hx ⟨t, ht⟩] at h
          exact ih h

variable {cwd : Loc} {root : Path}

theorem resolve_append (fl : Bool) (hroot : fs.resolve true cwd root = .ok R) (hns : ns ≠ []) :
    ∃ links ≤ maxLinks,
      fs.resolve fl cwd (root ++ Path.ofNames ns) = (fs.walk fl links R (Path.ofNames ns)).map (·.1) := by
  have hcont := continues_ofNames hns
  unfold resolve at hroot
  split at hroot
  · cases hroot
  · obtain ⟨⟨l, links⟩, hwalk, rfl⟩ := Except.map_eq_ok.1 hroot
    refine ⟨links, walk_links_le _ _ _ hwalk, ?_⟩
    unfold resolve
    rw [if_neg (by simp [hcont.ne_nil]), walk_append fs fl hcont, hwalk]
    rfl

/-- **Names below a directory lead where they say** when directories stand along all but the last. -/
theorem resolve_below (fl : Bool) {n : String} (hroot : fs.resolve true cwd root = .ok R) (hdirs : fs.Filled R ns)
    (hlast : ∀ t, fs (R ++ (ns ++ [n])) = some (.link t) → fl = false) :
    fs.resolve fl cwd (root ++ Path.ofNames (ns ++ [n])) = .ok (R ++ (ns ++ [n])) := by
  obtain ⟨links, _, h⟩ := resolve_append fl hroot (show ns ++ [n] ≠ [] by simp)
  rw [h, walk_names (fun pre hpre hne => ?_) hlast]
  · rfl
  · rcases List.prefix_concat_iff.1 hpre with rfl | hpre
    · exact absurd rfl hne
    · exact hdirs pre hpre

/-- **Where no link stands** names lead where they say, if anywhere. -/
theorem walk_names_plain {fl : Bool} {links : Nat} : ∀ {ns : List String} {cur : Loc} {r : Loc × Nat},
    (∀ ms t, fs (cur ++ ms) ≠ some (.link t)) → fs.walk fl links cur (Path.ofNames ns) = .ok r → r.1 = cur ++ ns
  | [], cur, r, _, hw => by
    obtain rfl := Except.ok.inj ((walk_nil _ _ _ _).symm.trans hw)
    simp
  | n :: ns, cur, r, hplain, hw => by
    have hcons : Path.ofNames (n :: ns) = .normal n :: Path.ofNames ns := rfl
    rw [hcons] at hw
    cases hd : fs.isDir cur with
    | false => rw [walk_notDir hd] at hw; cases hw
    | true =>
      cases hn : fs (cur ++ [n]) with
      | none =>
        rw [walk_missing hd hn] at hw
        split at hw
        · rename_i hnil
          obtain rfl : ns = [] := by simpa [Path.ofNames] using hnil
          cases hw
          rfl
        · cases hw
      | some x =>
        rw [walk_plain hd hn fun t ht => hplain [n] t (ht ▸ hn)] at hw
        rw [walk_names_plain (fun ms t => ?_) hw, List.append_assoc, List.singleton_append]
        rw [List.append_assoc]
        exact hplain ([n] ++ ms) t

theorem resolve_names_plain {fl : Bool} {l : Loc} (hroot : fs.resolve true cwd root = .ok R)
    (hplain : ∀ ms t, fs (R ++ ms) ≠ some (.link t)) (hns : ns ≠ [])
    (hl : fs.resolve fl cwd (root ++ Path.ofNames ns) = .ok l) : l = R ++ ns := by
  obtain ⟨links, _, h⟩ := resolve_append fl hroot hns
  rw [h] at hl
  obtain ⟨r, hw, rfl⟩ := Except.map_eq_ok.1 hl
  exact walk_names_plain hplain hw

theorem Filled.resolve (hdirs : fs.Filled R ns) (hroot : fs.resolve true cwd root = .ok R) :
    fs.resolve true cwd (root ++ Path.ofNames ns) = .ok (R ++ ns) := by
  rcases List.eq_nil_or_concat' ns with rfl | ⟨ns, n, rfl⟩
  · simpa [Path.ofNames] using hroot
  · refine resolve_below true hroot (fun pre hpre => hdirs pre (hpre.trans (List.prefix_append ns [n]))) fun t ht => ?_
    have hdir := hdirs _ (List.prefix_refl _)
    rw [isDir, ht] at hdir
    cases hdir

theorem resolve_below_missing {fl : Bool} {n : String} (hroot : fs.resolve true cwd root = .ok R)
    (hR : fs.isDir R = true) (hclean : fs.Clean R (ns ++ [n])) (hnot : ¬ fs.Filled R ns) :
    fs.resolve fl cwd (root ++ Path.ofNames (ns ++ [n])) = .error .noent := by
  obtain ⟨links, _, h⟩ := resolve_append fl hroot (show ns ++ [n] ≠ [] by simp)
  obtain ⟨pre, hpre, hnone⟩ := (hclean.upto (List.prefix_append ns [n])).missing hnot
  rw [h, walk_names_missing hR hclean (hpre.trans (List.prefix_append ns [n])) (fun hne => ?_) hnone]
  · rfl
  · have := hpre.length_le
    simp [hne] at this

/-- Nothing lies behind what is no directory. -/
theorem resolve_blocked {p : Path} {l : Loc} (hp : fs.resolve true cwd p = .ok l) (hl : fs.isDir l = false)
    (hsome : fs l ≠ none) (fl : Bool) (hns : ns ≠ []) :
    fs.resolve fl cwd (p ++ Path.ofNames ns) = .error .notdir := by
  obtain ⟨links, _, h⟩ := resolve_append fl hp hns
  rw [h, walk_continues_notDir hl (continues_ofNames hns), notDirError, if_neg hsome]
  rfl

/-- What resolves to a node when links are followed resolves to one when the last is not. -/
theorem walk_noFollow : ∀ (links : Nat) (cur : Loc) (p : Path) {r : Loc × Nat}, fs.walk true links cur p = .ok r →
    fs r.1 ≠ none → ∃ r', fs.walk false links cur p = .ok r' ∧ fs r'.1 ≠ none := by
  apply walk_rule
  case nil => intro links cur r h hr; exact ⟨r, by simpa using h, hr⟩
  case rootDir => intro links cur cs ih r h hr; rw [walk_rootDir] at h ⊢; exact ih h hr
  case curDir =>
    intro links cur cs ih r h hr
    rw [walk_curDir] at h ⊢
    split at h
    · rename_i hd; rw [if_pos hd]; exact ih h hr
    · cases h
  case parentDir =>
    intro links cur cs ih r h hr
    rw [walk_parentDir] at h ⊢
    split at h
    · rename_i hd; rw [if_pos hd]; exact ih h hr
    · cases h
  case normal =>
    intro links cur n cs ih ihj r h hr
    cases hd : fs.isDir cur with
    | false => rw [walk_notDir hd] at h; cases h
    | true =>
      cases hn : fs (cur ++ [n]) with
      | none =>
        rw [walk_missing hd hn] at h ⊢
        split at h
        · cases h; exact absurd hn hr
        · cases h
      | some x =>
        by_cases hx : ∃ t, x = .link t
        · obtain ⟨t, rfl⟩ := hx
          rw [walk_link hd hn, if_neg (by simp)] at h
          rw [walk_link hd hn]
          split
          · exact ⟨_, rfl, by rw [hn]; simp⟩
          · cases links with
            | zero => cases h
            | succ m => exact ihj m rfl t h hr
        · have hx' : ∀ t, x ≠ .link t := fun t ht => hx ⟨t, ht⟩
          rw [walk_plain hd hn hx'] at h ⊢
          exact ih h hr

theorem resolve_noFollow {p : Path} {l : Loc} (h : fs.resolve true cwd p = .ok l) (hl : fs l ≠ none) :
    ∃ l', fs.resolve false cwd p = .ok l' ∧ fs l' ≠ none := by
  unfold resolve at h ⊢
  split at h
  · cases h
  · rename_i hp
    obtain ⟨r, hwalk, rfl⟩ := Except.map_eq_ok.1 h
    obtain ⟨r', hwalk', hr'⟩ := walk_noFollow _ _ _ hwalk hl
    exact ⟨r'.1, by rw [if_neg hp, hwalk']; rfl, hr'⟩

end FS

/-! ## The calls -/

namespace World

/-- No call fails, and `root` leads to the directory `R`. -/
structure Rooted (w : World) (root : Path) (R : Loc) : Prop where
  reliable : w.Reliable
  resolves : w.resolve true root = .ok R
  isDir : w.fs.isDir R = true

/-- A directory made along `ns` below `R`. -/
def DirAlong (R : Loc) (ns : List String) (ch : Change) : Prop :=
  ∃ pre m, pre <+: ns ∧ ch = ⟨R ++ pre, some (.dir m)⟩

variable {w w' : World} {root : Path} {R : Loc} {ns : List String}

theorem Rooted.grows {P : Change → Prop} (h : w.Rooted root R) (hl : w.Leads P w') (hg : FS.Grows w.fs w'.fs) :
    w'.Rooted root R where
  reliable := hl.reliable h.reliable
  resolves := by
    unfold resolve
    rw [hl.cwd]
    exact FS.resolve_grows hg h.resolves
  isDir := hg.isDir h.isDir

theorem Rooted.tick (h : w.Rooted root R) : w.tick.Rooted root R := ⟨h.reliable, h.resolves, h.isDir⟩

theorem DirAlong.mono {ms : List String} {ch : Change} (h : DirAlong R ms ch) (hms : ms <+: ns) : DirAlong R ns ch := by
  obtain ⟨pre, m, hpre, rfl⟩ := h
  exact ⟨pre, m, hpre.trans hms, rfl⟩

/-- Making directories along clean names changes no node into another kind. -/
theorem DirAlong.grows (hclean : w.fs.Clean R ns) (h : w.Leads (DirAlong R ns) w') :
    FS.Grows w.fs w'.fs ∧ w'.fs.Clean R ns := by
  refine h.induct (I := fun fs => FS.Grows w.fs fs ∧ fs.Clean R ns) ⟨FS.Grows.refl _, hclean⟩ ?_
  rintro fs ch ⟨pre, m, hpre, rfl⟩ ⟨hg, hc⟩
  have hstep : FS.Grows fs (Function.update fs (R ++ pre) (some (.dir m))) := by
    refine FS.grows_update ?_
    rcases hc pre hpre with hnone | hdir
    · exact .inr ⟨hnone, by simp⟩
    · obtain ⟨m', hm'⟩ := FS.isDir_iff.1 hdir
      exact .inl (by rw [hm']; rfl)
  refine ⟨hg.trans hstep, fun q hq => ?_⟩
  by_cases heq : q = pre
  · subst heq
    exact .inr (FS.isDir_iff.2 ⟨m, Function.update_self _ _ _⟩)
  · rcases hc q hq with hnone | hdir
    · exact .inl (by rw [Function.update_of_ne (by simpa using heq)]; exact hnone)
    · exact .inr (hstep.isDir hdir)

end World

open World

variable {w : World} {root : Path} {R : Loc} {ns : List String}

/-- Where a directory is, nothing is made, and only an unreliable world refuses it. -/
theorem wp_createDirAll_there {p : Path} {l : Loc} (hp : w.resolve true p = .ok l) (hl : w.fs.isDir l = true)
    (P : Change → Prop) :
    Act.wp (createDirAll p) (fun _ w' => w.Leads P w' ∧ w'.fs = w.fs) (fun _ w' => w.Leads P w' ∧ ¬ w.Reliable) w := by
  obtain ⟨m, hm⟩ := FS.isDir_iff.1 hl
  obtain ⟨l', hp', hl'⟩ := FS.resolve_noFollow hp (by simp [hm])
  unfold createDirAll
  cases hrev : p.reverse with
  | nil => exact ⟨Leads.refl _ w, rfl⟩
  | cons c rev =>
    have hback : (c :: rev).reverse = p := by rw [← hrev, List.reverse_reverse]
    have htwice : w.Leads P w.tick.tick := (Leads.tick _ _).trans (Leads.tick _ _)
    rw [createDirAllRev, Act.wp_tryCatch, hback]
    refine wp_mkdir (fun l₁ h₁ hnone => ?_) fun e he => ?_
    · obtain rfl : l' = l₁ := Except.ok.inj (hp'.symm.trans h₁)
      exact absurd hnone hl'
    · have hne : e ≠ .noent := by
        rintro rfl
        rcases he with ⟨_, he⟩ | he | ⟨he, _⟩
        · cases he
        · cases hp'.symm.trans he
        · cases he
      rw [if_neg hne, orIsDir, Act.wp_bind]
      refine wp_pathIsDir (fun _ _ _ => ⟨htwice, rfl⟩) fun hbad => ⟨htwice, fun hw => ?_⟩
      exact hbad ⟨hw.tick, l, hp, hl⟩

/-- A directory that is there is accepted. -/
theorem wp_createDirAll_isDir {p : Path} {l : Loc} (hw : w.Reliable) (hp : w.resolve true p = .ok l)
    (hl : w.fs.isDir l = true) (P : Change → Prop) :
    Act.wp (createDirAll p) (fun _ w' => w.Leads P w' ∧ w'.fs = w.fs) (fun _ _ => False) w :=
  Act.wp_mono (wp_createDirAll_there hp hl P) (fun _ _ h => h) fun _ _ h => h.2 hw

/-- The canonical path of a directory. -/
theorem wp_canonicalize_isDir {p : Path} {l : Loc} (hw : w.Reliable) (hp : w.resolve true p = .ok l)
    (hl : w.fs.isDir l = true) :
    Act.wp (canonicalize p) (fun q w' => q = Path.ofLoc l ∧ w' = w.tick) (fun _ _ => False) w := by
  obtain ⟨m, hm⟩ := FS.isDir_iff.1 hl
  refine wp_canonicalize (fun l' hl' _ => ?_) fun e hbad => hbad ⟨hw, l, hp, by rw [hm]; rfl⟩
  obtain rfl : l = l' := Except.ok.inj (hp.symm.trans hl')
  exact ⟨rfl, rfl⟩

/-- The last directory of a path whose other directories are there. -/
theorem wp_mkdir_below {n : String} (hroot : w.Rooted root R) (hdirs : w.fs.Filled R ns)
    (hclean : w.fs.Clean R (ns ++ [n])) :
    Act.wp (mkdir (root ++ Path.ofNames (ns ++ [n])))
      (fun _ w' => w.Leads (DirAlong R (ns ++ [n])) w' ∧ w'.fs.Filled R (ns ++ [n]))
      (fun e w' => e = .exist ∧ w' = w.tick ∧ w.fs.Filled R (ns ++ [n])) w := by
  have hlast := hclean _ (List.prefix_refl _)
  have hres : ∀ fl, w.resolve fl (root ++ Path.ofNames (ns ++ [n])) = .ok (R ++ (ns ++ [n])) := fun fl => by
    refine FS.resolve_below fl hroot.resolves hdirs fun t ht => ?_
    rcases hlast with hnone | hdir
    · rw [hnone] at ht; cases ht
    · rw [FS.isDir, ht] at hdir; cases hdir
  refine wp_mkdir (fun l hl hnone => ?_) fun e he => ?_
  · obtain rfl : R ++ (ns ++ [n]) = l := Except.ok.inj ((hres false).symm.trans hl)
    have hmade : w.Leads (DirAlong R (ns ++ [n]))
        (w.tick.emit (R ++ (ns ++ [n])) (some (.dir (w.dirMode (R ++ (ns ++ [n])).dropLast)))) :=
      Leads.emit w ⟨_, _, List.prefix_refl _, rfl⟩
    refine ⟨hmade, FS.Filled.snoc (fun pre hpre => (DirAlong.grows hclean hmade).1.isDir (hdirs pre hpre)) ?_⟩
    exact FS.isDir_iff.2 ⟨_, Function.update_self _ _ _⟩
  · rcases he with ⟨hbad, _⟩ | herr | ⟨rfl, l, hl, hsome⟩
    · exact absurd hroot.reliable hbad
    · have := (hres false).symm.trans herr
      cases this
    · obtain rfl : R ++ (ns ++ [n]) = l := Except.ok.inj ((hres false).symm.trans hl)
      refine ⟨rfl, rfl, hdirs.snoc ?_⟩
      rcases hlast with hnone | hdir
      · rw [hnone] at hsome; cases hsome
      · exact hdir

/-- **Directories are made along names** where nothing but directories stands, and nowhere else. -/
theorem wp_createDirAll (hroot : w.Rooted root R) (hclean : w.fs.Clean R ns) :
    Act.wp (createDirAll (root ++ Path.ofNames ns)) (fun _ w' => w.Leads (DirAlong R ns) w' ∧ w'.fs.Filled R ns)
      (fun _ _ => False) w := by
  induction ns using List.reverseRecOn generalizing w with
  | nil =>
    rw [Path.ofNames, List.map_nil, List.append_nil]
    refine Act.wp_mono (wp_createDirAll_isDir hroot.reliable hroot.resolves hroot.isDir (DirAlong R [])) ?_
      fun _ _ h => h
    rintro _ w' ⟨hl, hfs⟩
    refine ⟨hl, fun pre hpre => ?_⟩
    rw [List.prefix_nil.1 hpre, List.append_nil, hfs]
    exact hroot.isDir
  | append_singleton ns n ih =>
    have hfix : root ++ Path.ofNames (ns ++ [n]) = (root ++ Path.ofNames ns) ++ [.normal n] := by
      rw [Path.ofNames_append, List.append_assoc]; rfl
    have hor : ∀ {w₁ : World}, w₁.Rooted root R → w₁.fs.Filled R (ns ++ [n]) → ∀ e, Act.wp
        (orIsDir (root ++ Path.ofNames (ns ++ [n])) e) (fun _ w' => w' = w₁.tick) (fun _ _ => False) w₁ := by
      intro w₁ h₁ hfull e
      have hdir := hfull _ (List.prefix_refl _)
      have hres := FS.resolve_below true h₁.resolves
        (fun pre hpre => hfull pre (hpre.trans (List.prefix_append ns [n]))) (n := n) fun t ht => by
          rw [FS.isDir, ht] at hdir; cases hdir
      rw [orIsDir, Act.wp_bind]
      exact wp_pathIsDir (fun _ _ _ => rfl) fun hbad => absurd ⟨h₁.reliable, _, hres, hdir⟩ hbad
    rw [hfix, createDirAll_unfold, Act.wp_tryCatch, ← hfix]
    by_cases hdirs : w.fs.Filled R ns
    · -- only the last may be missing
      refine Act.wp_mono (wp_mkdir_below hroot hdirs hclean) (fun _ _ h => h) ?_
      rintro _ _ ⟨rfl, rfl, hfull⟩
      rw [if_neg (by simp)]
      refine Act.wp_mono (hor hroot.tick hfull _) ?_ fun _ _ h => h
      rintro _ _ rfl
      exact ⟨(Leads.tick _ _).trans (Leads.tick _ _), hfull⟩
    · -- a parent is missing: it is made first
      have hmissing : ∀ fl, w.resolve fl (root ++ Path.ofNames (ns ++ [n])) = .error .noent := fun fl =>
        FS.resolve_below_missing hroot.resolves hroot.isDir hclean hdirs
      refine wp_mkdir (fun l hl _ => ?_) fun e he => ?_
      · have := (hmissing false).symm.trans hl
        cases this
      · obtain rfl : e = .noent := by
          rcases he with ⟨hbad, _⟩ | herr | ⟨_, l, hl, _⟩
          · exact absurd hroot.reliable hbad
          · exact (Except.error.inj ((hmissing false).symm.trans herr)).symm
          · have := (hmissing false).symm.trans hl
            cases this
        rw [if_pos rfl, Act.wp_bind]
        have hpre := List.prefix_append ns [n]
        refine Act.wp_mono (ih hroot.tick (hclean.upto hpre)) ?_
          fun _ _ h => h
        rintro _ w₁ ⟨hl₁, hfull₁⟩
        have hl := (Leads.tick (DirAlong R (ns ++ [n])) w).trans (hl₁.mono fun ch hch => hch.mono hpre)
        obtain ⟨hg, hclean₁⟩ := DirAlong.grows hclean hl
        have hroot₁ := hroot.grows hl hg
        rw [Act.wp_tryCatch]
        refine Act.wp_mono (wp_mkdir_below hroot₁ hfull₁ hclean₁) (fun _ w₂ h => ⟨hl.trans h.1, h.2⟩) ?_
        rintro e _ ⟨rfl, rfl, hfull⟩
        refine Act.wp_mono (hor hroot₁.tick hfull _) ?_
          fun _ _ h => h
        rintro _ _ rfl
        exact ⟨hl.trans ((Leads.tick _ _).trans (Leads.tick _ _)), hfull⟩

/-- No directory is made where something else stands, nor behind it. -/
theorem wp_createDirAll_blocked {p : Path} {n : String} {l : Loc} (hp : w.resolve true (p ++ [.normal n]) = .ok l)
    (hl : w.fs.isDir l = false) (hsome : w.fs l ≠ none) (ns : List String) :
    Act.wp (createDirAll (p ++ [.normal n] ++ Path.ofNames ns)) (fun _ _ => False) (fun _ _ => True) w := by
  obtain ⟨q, m, hlast⟩ : ∃ q m, p ++ [.normal n] ++ Path.ofNames ns = q ++ [.normal m] := by
    rcases List.eq_nil_or_concat' ns with rfl | ⟨ns, m, rfl⟩
    · exact ⟨p, n, by simp [Path.ofNames]⟩
    · exact ⟨p ++ [.normal n] ++ Path.ofNames ns, m, by rw [Path.ofNames_append, ← List.append_assoc]; rfl⟩
  -- something stands there, but no directory, or the path leads nowhere for another reason than a missing name
  have hthere : (∃ l', w.resolve false (q ++ [.normal m]) = .ok l' ∧ w.fs l' ≠ none) ∨
      w.resolve false (q ++ [.normal m]) = .error .notdir := by
    rw [← hlast]
    by_cases hns : ns = []
    · rw [hns, Path.ofNames, List.map_nil, List.append_nil]
      exact .inl (FS.resolve_noFollow hp hsome)
    · exact .inr (FS.resolve_blocked hp hl hsome false hns)
  have hnotDir : ∀ l', w.resolve true (q ++ [.normal m]) = .ok l' → w.fs.isDir l' = false := by
    rw [← hlast]
    intro l' hl'
    by_cases hns : ns = []
    · rw [hns, Path.ofNames, List.map_nil, List.append_nil, hp] at hl'
      rw [← Except.ok.inj hl']
      exact hl
    · cases (FS.resolve_blocked hp hl hsome true hns).symm.trans hl'
  rw [hlast, createDirAll_unfold, Act.wp_tryCatch]
  refine wp_mkdir (fun l' hl' hnone => ?_) fun e he => ?_
  · rcases hthere with ⟨l'', hl'', hsome'⟩ | herr
    · obtain rfl : l' = l'' := Except.ok.inj (hl'.symm.trans hl'')
      exact hsome' hnone
    · cases hl'.symm.trans herr
  · have hne : e ≠ .noent := by
      rcases he with ⟨_, rfl⟩ | herr | ⟨rfl, _⟩
      · simp
      · rcases hthere with ⟨l'', hl'', _⟩ | herr'
        · cases hl''.symm.trans herr
        · cases herr'.symm.trans herr
          simp
      · simp
    rw [if_neg hne, orIsDir, Act.wp_bind]
    refine wp_pathIsDir (fun l' hl' hdir => ?_) fun _ => trivial
    rw [World.tick_resolve] at hl'
    rw [World.tick_fs, hnotDir l' hl'] at hdir
    cases hdir

/-- `root` leads to an empty directory, or to a place where one can be made. -/
structure World.Vacant (w : World) (root : Path) (R : Loc) : Prop where
  reliable : w.Reliable
  resolves : w.resolve true root = .ok R
  place : w.fs.isDir R = true ∨ w.fs R = none ∧ w.resolve false root = .ok R
  below : ∀ ns, ns ≠ [] → w.fs (R ++ ns) = none

/-- An empty directory is there or is made. -/
theorem wp_createDirAll_vacant (h : w.Vacant root R) :
    Act.wp (createDirAll root) (fun _ w' => w'.Rooted root R ∧ ∀ ns, ns ≠ [] → w'.fs (R ++ ns) = none)
      (fun _ _ => False) w := by
  rcases h.place with hdir | ⟨hnone, hres⟩
  · refine Act.wp_mono (wp_createDirAll_isDir h.reliable h.resolves hdir (DirAlong R [])) ?_ fun _ _ h => h
    rintro _ w' ⟨hl, hfs⟩
    exact ⟨Rooted.grows ⟨h.reliable, h.resolves, hdir⟩ hl (hfs ▸ FS.Grows.refl _), fun ns hns => hfs ▸ h.below ns hns⟩
  · unfold createDirAll
    cases hrev : root.reverse with
    | nil =>
      obtain rfl : root = [] := by simpa using hrev
      cases hres
    | cons c rev =>
      have hback : (c :: rev).reverse = root := by rw [← hrev, List.reverse_reverse]
      rw [createDirAllRev, Act.wp_tryCatch, hback]
      refine wp_mkdir (fun l hl _ => ?_) fun e he => ?_
      · obtain rfl : R = l := Except.ok.inj (hres.symm.trans hl)
        refine ⟨⟨h.reliable, ?_, FS.isDir_iff.2 ⟨_, Function.update_self _ _ _⟩⟩, fun ns hns => ?_⟩
        · exact FS.resolve_grows (FS.grows_update (.inr ⟨hnone, by simp⟩)) h.resolves
        · rw [World.emit_fs, Function.update_of_ne (by simpa using hns)]
          exact h.below ns hns
      · rcases he with ⟨hbad, _⟩ | herr | ⟨_, l, hl, hsome⟩
        · exact absurd h.reliable hbad
        · have := hres.symm.trans herr
          cases this
        · obtain rfl : R = l := Except.ok.inj (hres.symm.trans hl)
          rw [hnone] at hsome
          cases hsome

end Posix
