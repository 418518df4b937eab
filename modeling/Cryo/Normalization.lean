import Mathlib.Data.List.Induction
import Mathlib.Tactic.Push
import Cryo.Lib.Lexical
import Cryo.Reader

/-!
# The lexical normalisation

`normalize` of `path_safety.rs` keeps a stack of components: a name is taken off by the `..` behind it, and a `..`
behind anything else stays. What it leaves is the root if there is one, then `..`, then names (`normalize_form`), and
it leads to the same place (`locate_normalize`, `walk_normalize`).

* `normalize_sound`: all of this for the path of any text, and what the check of a link's target rests on: a target
  whose normalisation starts with the root leads below it, as long as no link stands on the way.
-/

namespace Cryo

open Posix

variable {p q : Path} {n : String}

/-! ## One component more -/

theorem normalize_snoc (p : Path) (c : Component) :
    normalize (p ++ [c]) = (normalizeStep (normalize p).reverse c).reverse := by simp [normalize]

@[simp] theorem normalize_snoc_normal (p : Path) (n : String) :
    normalize (p ++ [.normal n]) = normalize p ++ [.normal n] := by simp [normalize_snoc, normalizeStep]

@[simp] theorem normalize_snoc_curDir (p : Path) : normalize (p ++ [.curDir]) = normalize p := by
  simp [normalize_snoc, normalizeStep]

/-- A name is taken off. -/
theorem normalize_snoc_pop (h : normalize p = q ++ [.normal n]) : normalize (p ++ [.parentDir]) = q := by
  simp [normalize_snoc, normalizeStep, h]

/-- Behind anything else a `..` stays. -/
theorem normalize_snoc_parentDir (h : ∀ q n, normalize p ≠ q ++ [.normal n]) :
    normalize (p ++ [.parentDir]) = normalize p ++ [.parentDir] := by
  rw [normalize_snoc]
  rcases List.eq_nil_or_concat' (normalize p) with hnil | ⟨q, c, hq⟩
  · rw [hnil]
    rfl
  · cases c with
    | normal n => exact absurd hq (h q n)
    | rootDir => simp [hq, normalizeStep]
    | curDir => simp [hq, normalizeStep]
    | parentDir => simp [hq, normalizeStep]

/-! ## What is left -/

/-- The root or nothing, then `..`, then names. -/
def normalForm (absolute : Bool) (k : Nat) (ns : List String) : Path :=
  (if absolute then [.rootDir] else []) ++ List.replicate k .parentDir ++ Path.ofNames ns

theorem normalForm_snoc (absolute : Bool) (k : Nat) (ns : List String) (n : String) :
    normalForm absolute k (ns ++ [n]) = normalForm absolute k ns ++ [.normal n] := by
  simp [normalForm, Path.ofNames]

theorem normalForm_succ (absolute : Bool) (k : Nat) :
    normalForm absolute (k + 1) [] = normalForm absolute k [] ++ [.parentDir] := by
  simp [normalForm, Path.ofNames, List.replicate_succ']

/-- Without names the last component is none. -/
theorem normalForm_nil_ne (absolute : Bool) (k : Nat) : normalForm absolute k [] ≠ q ++ [.normal n] := by
  intro heq
  have hmem : .normal n ∈ normalForm absolute k [] := by simp [heq]
  cases absolute <;> simp [normalForm, Path.ofNames] at hmem

/-- **A normal form is left as it is.** -/
theorem normalize_normalForm (absolute : Bool) (k : Nat) (ns : List String) :
    normalize (normalForm absolute k ns) = normalForm absolute k ns := by
  induction ns using List.reverseRecOn with
  | nil =>
    induction k with
    | zero => cases absolute <;> rfl
    | succ k ih =>
      rw [normalForm_succ, normalize_snoc_parentDir, ih]
      intro q n
      rw [ih]
      exact normalForm_nil_ne absolute k
  | append_singleton ns n ih => rw [normalForm_snoc, normalize_snoc_normal, ih]

/-- **What is left is a normal form**, with the root if the path has it. -/
theorem normalize_form (h : p.RootFirst) : ∃ k ns, normalize p = normalForm p.isAbsolute k ns := by
  induction p using List.reverseRecOn with
  | nil => exact ⟨0, [], rfl⟩
  | append_singleton p c ih =>
    obtain ⟨hp, hroot⟩ := h.snoc
    by_cases hnil : p = []
    · subst hnil
      cases c with
      | rootDir => exact ⟨0, [], rfl⟩
      | curDir => exact ⟨0, [], rfl⟩
      | parentDir => exact ⟨1, [], rfl⟩
      | normal n => exact ⟨0, [n], rfl⟩
    · obtain ⟨k, ns, hform⟩ := ih hp
      have habs : Path.isAbsolute (p ++ [c]) = Path.isAbsolute p := by
        simp [Path.isAbsolute, List.head?_append_of_ne_nil p hnil]
      rw [habs]
      cases c with
      | rootDir => exact absurd (hroot rfl) hnil
      | curDir => exact ⟨k, ns, by rw [normalize_snoc_curDir, hform]⟩
      | normal n => exact ⟨k, ns ++ [n], by rw [normalize_snoc_normal, hform, normalForm_snoc]⟩
      | parentDir =>
        rcases List.eq_nil_or_concat' ns with rfl | ⟨ns, n, rfl⟩
        · refine ⟨k + 1, [], ?_⟩
          rw [normalize_snoc_parentDir, hform, normalForm_succ]
          intro q n
          rw [hform]
          exact normalForm_nil_ne _ k
        · exact ⟨k, ns, normalize_snoc_pop (by rw [hform, normalForm_snoc])⟩

theorem normalize_idempotent (h : p.RootFirst) : normalize (normalize p) = normalize p := by
  obtain ⟨k, ns, hform⟩ := normalize_form h
  rw [hform, normalize_normalForm]

/-! ## Where it leads -/

/-- **The normalisation leads to the same place.** -/
theorem locate_normalize (cwd : Loc) (p : Path) : Path.locate cwd (normalize p) = Path.locate cwd p := by
  induction p using List.reverseRecOn with
  | nil => rfl
  | append_singleton p c ih =>
    rw [Path.locate_append, ← ih]
    cases c with
    | rootDir => simp [normalize_snoc, normalizeStep, Path.locate_append]
    | curDir => simp [Path.locateStep]
    | normal n => rw [normalize_snoc_normal, Path.locate_append]
    | parentDir =>
      by_cases hname : ∃ q n, normalize p = q ++ [.normal n]
      · obtain ⟨q, n, hq⟩ := hname
        rw [normalize_snoc_pop hq, hq, Path.locate_append]
        simp [Path.locateStep]
      · push Not at hname
        rw [normalize_snoc_parentDir hname, Path.locate_append]

/-- **Where a path can be walked, its normalisation can**, when no link stands anywhere. -/
theorem walk_normalize {fs : FS} (hfree : fs.LinkFree) {fl : Bool} {links : Nat} {cur : Loc} (h : p.RootFirst)
    (hw : fs.walk fl links cur p = .ok (Path.locate cur p, links)) :
    fs.walk fl links cur (normalize p) = .ok (Path.locate cur p, links) := by
  induction p using List.reverseRecOn with
  | nil => exact hw
  | append_singleton p c ih =>
    obtain ⟨hp, hroot⟩ := h.snoc
    by_cases hc : c = .rootDir
    · obtain rfl := hroot hc
      subst hc
      exact hw
    obtain ⟨hfront, hlast⟩ := (hfree.walk_snoc_ok hc).1 hw
    have ih := ih hp hfront
    have hsnoc : fs.walk fl links cur (normalize p ++ [c]) = .ok (Path.locate cur (p ++ [c]), links) := by
      rw [← locate_normalize cur p] at ih hlast
      exact (hfree.walk_snoc_ok hc).2 ⟨ih, hlast⟩
    cases c with
    | rootDir => exact absurd rfl hc
    | normal n => rwa [normalize_snoc_normal]
    | curDir =>
      rw [normalize_snoc_curDir, Path.locate_append]
      exact ih
    | parentDir =>
      by_cases hname : ∃ q n, normalize p = q ++ [.normal n]
      · obtain ⟨q, n, hq⟩ := hname
        rw [hq] at ih
        rw [← locate_normalize, normalize_snoc_pop hq]
        exact ((hfree.walk_snoc_ok (by simp)).1 ih).1
      · push Not at hname
        rwa [normalize_snoc_parentDir hname]

/-- Where a path leads from a directory without any link in the file system, its normalisation leads as well; when it is
empty that is the directory itself. -/
theorem resolve_normalize {fs : FS} (hfree : fs.LinkFree) {fl : Bool} {cwd l : Loc} (h : p.RootFirst)
    (hl : fs.resolve fl cwd p = .ok l) :
    if normalize p = [] then l = cwd else fs.resolve fl cwd (normalize p) = .ok l := by
  obtain rfl := FS.resolve_locate (hfree.noLinkOn cwd p) hl
  split_ifs with hnil
  · rw [← locate_normalize, hnil, Path.locate_nil]
  · unfold FS.resolve at hl ⊢
    rw [if_neg hnil]
    split at hl
    · cases hl
    · obtain ⟨r, hw, -⟩ := Except.map_eq_ok.1 hl
      obtain rfl := hfree.walk_eq hw
      rw [walk_normalize hfree h hw]
      rfl

/-! ## The check of a link's target -/

/-- **An absolute path whose normalisation starts with a location** leads below it: no `..` is left then. -/
theorem locate_below (h : p.RootFirst) (habs : p.isAbsolute = true) {R : Loc}
    (hroot : (normalize p).startsWith (Path.ofLoc R) = true) (cwd : Loc) : R <+: Path.locate cwd p := by
  obtain ⟨k, ns, hform⟩ := normalize_form h
  rw [habs] at hform
  cases R with
  | nil => exact List.nil_prefix
  | cons a R =>
    cases k with
    | zero =>
      have hlocation : normalize p = Path.ofLoc ns := hform
      rw [hlocation, Path.startsWith_ofLoc] at hroot
      rwa [← locate_normalize, hlocation, Path.locate_ofLoc]
    | succ k =>
      -- The component behind the root would be a name and a `..`.
      rw [Path.startsWith_iff, hform] at hroot
      have hsecond := (List.cons_prefix_cons.1 ((List.prefix_cons_inj _).1 hroot)).1
      cases hsecond

/-- **The normalisation is sound**: for the path of any text it is idempotent, has no `.`, has `..` only in front of all
names, leads to the same place by its components, and in a file system without links by resolution; and where the
normalisation of a target joined to the directory of a link starts with the root, and no link stands on the way, the
target is resolved to the root or below it, from any directory. -/
theorem normalize_sound (s : String) :
    normalize (normalize (Path.ofString s)) = normalize (Path.ofString s) ∧
      .curDir ∉ normalize (Path.ofString s) ∧
      (∃ k ns, normalize (Path.ofString s) = (if (Path.ofString s).isAbsolute then [.rootDir] else []) ++
        List.replicate k .parentDir ++ Path.ofNames ns) ∧
      (∀ cwd, Path.locate cwd (normalize (Path.ofString s)) = Path.locate cwd (Path.ofString s)) ∧
      (∀ (fs : FS) (fl : Bool) (cwd l : Loc), fs.LinkFree → fs.resolve fl cwd (Path.ofString s) = .ok l →
        if normalize (Path.ofString s) = [] then l = cwd
        else fs.resolve fl cwd (normalize (Path.ofString s)) = .ok l) ∧
      ∀ (fs : FS) (fl : Bool) (cwd l R D : Loc),
        (normalize ((Path.ofLoc D).join (Path.ofString s))).startsWith (Path.ofLoc R) = true →
        fs.NoLinkOn cwd ((Path.ofLoc D).join (Path.ofString s)) →
        fs.resolve fl cwd ((Path.ofLoc D).join (Path.ofString s)) = .ok l → R <+: l := by
  have hp : (Path.ofString s).RootFirst := Path.rootFirst_ofString s
  obtain ⟨k, ns, hform⟩ := normalize_form hp
  refine ⟨normalize_idempotent hp, ?_, ⟨k, ns, hform⟩, fun cwd => locate_normalize cwd _,
    fun fs fl cwd l hfree hl => resolve_normalize hfree hp hl, ?_⟩
  · rw [hform]
    cases (Path.ofString s).isAbsolute <;> simp [normalForm, Path.ofNames]
  · intro fs fl cwd l R D hroot hno hl
    obtain ⟨hfirst, habs⟩ := hp.join_ofLoc D
    rw [FS.resolve_locate hno hl]
    exact locate_below hfirst habs hroot cwd

/-- A target that climbs out of the directory of its link and comes back. -/
theorem normalize_sound_out :
    let target := (Path.ofLoc ["out"]).join (Path.ofString "../out/./b")
    (World.ofDirs [[], ["out"]]).fs.resolve true [] target = .ok ["out", "b"] ∧ ["out"] <+: ["out", "b"] := by
  intro target
  have hfree : (World.ofDirs [[], ["out"]]).fs.LinkFree := by
    intro l t hl
    simp only [World.ofDirs] at hl
    split at hl <;> cases hl
  have hl : (World.ofDirs [[], ["out"]]).fs.resolve true [] target = .ok ["out", "b"] := by decide +kernel
  exact ⟨hl, (normalize_sound "../out/./b").2.2.2.2.2 _ true [] _ ["out"] ["out"] (by decide +kernel)
    (hfree.noLinkOn [] target) hl⟩

end Cryo
