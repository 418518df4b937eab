import Cryo.Lib.Directories

/-!
# What new directories are

A directory is made where nothing stands, in a directory (`FS.resolve_vacant`), with the mode of the mask and the
set-group-ID bit of the directory that it is made in. So where all directories below a place have one bit, and nothing
stands outside a directory, that stays so (`FS.Inherits`), and the mode of every new directory there is known
(`World.Made.eq`). `World.Fresh` says that directories were made and nothing else happened.
-/

namespace Posix

namespace FS

variable {fs : FS} {R l : Loc} {s : Nat} {ns : List String}

/-- The place where nothing stands lies in a directory, or has a directory behind it, or is the root of all. -/
def Vacancy (fs : FS) (l : Loc) : Prop := l = [] ∨ fs.isDir l.dropLast = true ∨ ∃ n, fs.isDir (l ++ [n]) = true

theorem walk_vacant {fl : Bool} : ∀ (links : Nat) (cur : Loc) (p : Path) {r : Loc × Nat},
    fs.walk fl links cur p = .ok r → fs r.1 = none → p = [] ∧ r.1 = cur ∨ fs.Vacancy r.1 := by
  apply walk_rule
  case nil =>
    intro links cur r h _
    rw [walk_nil] at h
    cases h
    exact .inl ⟨rfl, rfl⟩
  case rootDir =>
    intro links cur cs ih r h hr
    rw [walk_rootDir] at h
    rcases ih h hr with ⟨_, heq⟩ | hvac
    · exact .inr (.inl heq)
    · exact .inr hvac
  case curDir =>
    intro links cur cs ih r h hr
    rw [walk_curDir] at h
    split at h
    · rename_i hd
      rcases ih h hr with ⟨_, heq⟩ | hvac
      · rw [isDir, ← heq, hr] at hd
        cases hd
      · exact .inr hvac
    · cases h
  case parentDir =>
    intro links cur cs ih r h hr
    rw [walk_parentDir] at h
    split at h
    · rename_i hd
      rcases ih h hr with ⟨_, heq⟩ | hvac
      · -- the directory that was left stands behind its parent
        right
        rcases List.eq_nil_or_concat' cur with rfl | ⟨pre, n, rfl⟩
        · exact .inl heq
        · rw [List.dropLast_concat] at heq
          exact .inr (.inr ⟨n, heq ▸ hd⟩)
      · exact .inr hvac
    · cases h
  case normal =>
    intro links cur n cs ih ihj r h hr
    right
    cases hd : fs.isDir cur with
    | false => rw [walk_notDir hd] at h; cases h
    | true =>
      cases hn : fs (cur ++ [n]) with
      | none =>
        rw [walk_missing hd hn] at h
        split at h
        · cases h
          exact .inr (.inl (by rw [List.dropLast_concat]; exact hd))
        · cases h
      | some x =>
        by_cases hx : ∃ t, x = .link t
        · obtain ⟨t, rfl⟩ := hx
          rw [walk_link hd hn] at h
          split at h
          · cases h
            rw [hn] at hr
            cases hr
          · cases links with
            | zero => cases h
            | succ k =>
              rcases ihj k rfl t h hr with ⟨_, heq⟩ | hvac
              · rw [isDir, ← heq, hr] at hd
                cases hd
              · exact hvac
        · rw [walk_plain hd hn fun t ht => hx ⟨t, ht⟩] at h
          rcases ih h hr with ⟨_, heq⟩ | hvac
          · rw [heq, hn] at hr
            cases hr
          · exact hvac

/-- **Where a path leads to nothing** there is a directory around it. -/
theorem resolve_vacant {fl : Bool} {cwd : Loc} {p : Path} (h : fs.resolve fl cwd p = .ok l) (hl : fs l = none) :
    fs.Vacancy l := by
  unfold resolve at h
  split at h
  · cases h
  · rename_i hp
    obtain ⟨r, hwalk, rfl⟩ := Except.map_eq_ok.1 h
    rcases walk_vacant _ _ _ hwalk hl with ⟨hnil, _⟩ | hvac
    · exact absurd hnil hp
    · exact hvac

/-- Below the directory `R` all nodes stand in directories, and all directories have the set-group-ID bit `s`. -/
structure Inherits (fs : FS) (R : Loc) (s : Nat) : Prop where
  isDir : fs.isDir R = true
  parents : ∀ ns x, ns ≠ [] → fs (R ++ ns) = some x → fs.isDir (R ++ ns.dropLast) = true
  bit : ∀ ns m, fs (R ++ ns) = some (.dir m) → m &&& 0o2000 = s

namespace Inherits

/-- An empty directory. -/
theorem of_empty (hR : fs.isDir R = true) (hempty : ∀ ns, ns ≠ [] → fs (R ++ ns) = none) :
    fs.Inherits R (fs.setgid R) where
  isDir := hR
  parents ns x hns hx := by
    rw [hempty ns hns] at hx
    cases hx
  bit ns m hm := by
    by_cases hns : ns = []
    · rw [hns, List.append_nil] at hm
      rw [setgid, hm]
    · rw [hempty ns hns] at hm
      cases hm

/-- A place below `R` where nothing stands lies in a directory. -/
theorem parent (h : fs.Inherits R s) (hns : ns ≠ []) (hnone : fs (R ++ ns) = none) (hvac : fs.Vacancy (R ++ ns)) :
    fs.isDir (R ++ ns.dropLast) = true := by
  rcases hvac with hnil | hdir | ⟨n, hdir⟩
  · exact absurd (List.append_eq_nil_iff.1 hnil).2 hns
  · rwa [List.dropLast_append_of_ne_nil hns] at hdir
  · obtain ⟨m, hm⟩ := isDir_iff.1 hdir
    rw [List.append_assoc] at hm
    have hself := h.parents (ns ++ [n]) _ (by simp) hm
    rw [List.dropLast_concat, FS.isDir, hnone] at hself
    cases hself

/-- A node put in a directory, a directory with its bit. -/
theorem update (h : fs.Inherits R s) {x : Node} (hnot : fs.isDir l = false)
    (hin : ∀ ns, l = R ++ ns → fs.isDir (R ++ ns.dropLast) = true ∧ ∀ m, x = .dir m → m &&& 0o2000 = s) :
    Inherits (Function.update fs l (some x)) R s := by
  have hkept : ∀ {l'}, fs.isDir l' = true → FS.isDir (Function.update fs l (some x)) l' = true := by
    intro l' hl'
    have hne : l' ≠ l := by
      rintro rfl
      rw [hl'] at hnot
      cases hnot
    rwa [FS.isDir, Function.update_of_ne hne]
  refine ⟨hkept h.isDir, fun ns y hns hy => ?_, fun ns m hm => ?_⟩
  · by_cases heq : R ++ ns = l
    · exact hkept (hin ns heq.symm).1
    · rw [Function.update_of_ne heq] at hy
      exact hkept (h.parents ns y hns hy)
  · by_cases heq : R ++ ns = l
    · rw [heq, Function.update_self] at hm
      exact (hin ns heq.symm).2 m (Option.some.inj hm)
    · rw [Function.update_of_ne heq] at hm
      exact h.bit ns m hm

/-- The bit of a directory below `R`. -/
theorem setgid (h : fs.Inherits R s) (hdir : fs.isDir (R ++ ns) = true) : fs.setgid (R ++ ns) = s := by
  obtain ⟨m, hm⟩ := isDir_iff.1 hdir
  rw [FS.setgid, hm]
  exact h.bit ns m hm

end Inherits

end FS

/-! ## Modes of new directories -/

theorem setgid_and (fs : FS) (d : Loc) : fs.setgid d &&& 0o2000 = fs.setgid d := by
  unfold FS.setgid
  split
  · rw [Nat.and_assoc, Nat.and_self]
  · rfl

namespace World

variable {w w₀ w' : World} {R l : Loc}

/-- A new directory has the bit of the directory it stands in. -/
theorem dirMode_and (w : World) (d : Loc) : w.dirMode d &&& 0o2000 = w.fs.setgid d := by
  rw [dirMode, Nat.and_or_distrib_right, masked_and_setgid, Nat.zero_or, setgid_and]

/-- The mode that the mask gives, and possibly the set-group-ID bit. -/
def Made (w : World) (m : Nat) : Prop := m = masked 0o777 w.process.umask ||| (m &&& 0o2000)

theorem Made.congr {m : Nat} (h : w.Made m) (heq : w.process = w₀.process) : w₀.Made m := by
  unfold Made at *
  rwa [heq] at h

theorem made_dirMode (w : World) (d : Loc) : w.Made (w.dirMode d) := by
  unfold Made
  rw [dirMode_and]
  rfl

/-- **The mode of a directory that was made** where all have the bit of the root. -/
theorem Made.eq {m : Nat} {ns : List String} (h : w₀.Made m) (hin : w.fs.Inherits R (w₀.fs.setgid R))
    (hm : w.fs (R ++ ns) = some (.dir m)) : m = w₀.dirMode R := by
  rw [h, hin.bit ns m hm]
  rfl

theorem dirMode_lt (w : World) (d : Loc) : w.dirMode d < 0o10000 := by
  refine Nat.or_lt_two_pow (n := 12) (Nat.lt_of_le_of_lt Nat.and_le_left (by decide)) ?_
  rw [← setgid_and]
  exact Nat.lt_of_le_of_lt Nat.and_le_right (by decide)

/-! ## New directories -/

/-- Since `w₀` nothing happened but that directories were made where nothing stood. -/
structure Fresh (w₀ w : World) : Prop where
  process : w.process = w₀.process
  nodes : ∀ l, w.fs l = w₀.fs l ∨ w₀.fs l = none ∧ ∃ m, w.fs l = some (.dir m) ∧ w₀.Made m
  inherits : ∀ R s, w₀.fs.Inherits R s → w.fs.Inherits R s

namespace Fresh

theorem refl (w : World) : w.Fresh w := ⟨rfl, fun _ => .inl rfl, fun _ _ => id⟩

theorem tick (h : w₀.Fresh w) : w₀.Fresh w.tick := ⟨h.process, h.nodes, h.inherits⟩

theorem kept (h : w₀.Fresh w) (hl : w₀.fs l ≠ none) : w.fs l = w₀.fs l := by
  rcases h.nodes l with heq | ⟨hnone, _⟩
  · exact heq
  · exact absurd hnone hl

theorem made (h : w₀.Fresh w) {m : Nat} (hm : w.Made m) : w₀.Made m := hm.congr h.process

theorem trans (h : w₀.Fresh w) (h' : w.Fresh w') : w₀.Fresh w' := by
  refine ⟨h'.process.trans h.process, fun l => ?_, fun R s hR => h'.inherits R s (h.inherits R s hR)⟩
  rcases h'.nodes l with heq | ⟨hnone, m, hdir, hm⟩
  · rw [heq]
    exact h.nodes l
  · rcases h.nodes l with heq | ⟨_, _, hdir', _⟩
    · exact .inr ⟨heq.symm.trans hnone, m, hdir, h.made hm⟩
    · rw [hnone] at hdir'
      cases hdir'

/-- A directory was made. -/
theorem emit (hnone : w.fs l = none) (hvac : w.fs.Vacancy l) :
    w.Fresh (w.tick.emit l (some (.dir (w.dirMode l.dropLast)))) := by
  refine ⟨rfl, fun l' => ?_, fun R s hR => hR.update (by rw [FS.isDir, hnone]) ?_⟩
  · by_cases heq : l' = l
    · subst heq
      exact .inr ⟨hnone, _, Function.update_self _ _ _, made_dirMode w _⟩
    · exact .inl (Function.update_of_ne heq _ _)
  · rintro ns rfl
    have hns : ns ≠ [] := by
      rintro rfl
      have hdir := hR.isDir
      rw [FS.isDir, ← List.append_nil R, hnone] at hdir
      cases hdir
    have hparent := hR.parent hns hnone hvac
    refine ⟨hparent, fun m hm => ?_⟩
    obtain rfl := Node.dir.inj hm
    rw [dirMode_and, List.dropLast_append_of_ne_nil hns, hR.setgid hparent]

end Fresh

end World

open World

variable {w₀ : World}

theorem keeps_fresh_mkdir (p : Path) : Act.Keeps (w₀.Fresh) (mkdir p) := fun _ h =>
  wp_mkdir (fun _ hl hnone => h.trans (.emit hnone (FS.resolve_vacant hl hnone))) fun _ _ => h.tick

theorem keeps_fresh_createDirAll (p : Path) : Act.Keeps (w₀.Fresh) (createDirAll p) :=
  keeps_createDirAllRev (fun _ h => h.tick) keeps_fresh_mkdir _

theorem keeps_fresh_canonicalize (p : Path) : Act.Keeps (w₀.Fresh) (canonicalize p) := fun _ h =>
  wp_canonicalize (fun _ _ _ => h.tick) fun _ _ => h.tick

end Posix
