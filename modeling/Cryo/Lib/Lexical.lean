import Cryo.Lib.FileSystem
import Cryo.Lib.PathText

/-!
# Paths read without a file system

`locate` reads a path from a directory by its components alone: `..` drops the last name, and stays at the root. A walk
that meets no symbolic link ends there (`walk_locate`, `resolve_locate`). The paths of texts, and what is joined to the
path of a location, have the root in front or not at all (`RootFirst`).
-/

namespace Posix

namespace Path

/-- Where one component leads from a place. -/
def locateStep (l : Loc) : Component → Loc
  | .rootDir => []
  | .curDir => l
  | .parentDir => l.dropLast
  | .normal n => l ++ [n]

/-- Where a path leads from a directory, by its text. -/
def locate (cwd : Loc) (p : Path) : Loc := p.foldl locateStep cwd

example : locate ["a"] [.parentDir, .parentDir, .normal "b"] = ["b"] := by decide

@[simp] theorem locate_nil (cwd : Loc) : locate cwd [] = cwd := rfl

@[simp] theorem locate_cons (cwd : Loc) (c : Component) (p : Path) :
    locate cwd (c :: p) = locate (locateStep cwd c) p := rfl

theorem locate_append (cwd : Loc) (p q : Path) : locate cwd (p ++ q) = locate (locate cwd p) q := by
  unfold locate
  exact List.foldl_append

theorem locate_ofNames (cwd : Loc) (ns : List String) : locate cwd (ofNames ns) = cwd ++ ns := by
  induction ns generalizing cwd with
  | nil => simp [ofNames]
  | cons n ns ih =>
    show locate (cwd ++ [n]) (ofNames ns) = _
    rw [ih, List.append_assoc, List.singleton_append]

/-- The path of a location leads there from everywhere. -/
theorem locate_ofLoc (cwd l : Loc) : locate cwd (ofLoc l) = l := locate_ofNames [] l

/-! ## The root -/

/-- The root stands in front, or nowhere. -/
def RootFirst (p : Path) : Prop := .rootDir ∉ p.tail

theorem RootFirst.of_not_mem {p : Path} (h : .rootDir ∉ p) : p.RootFirst := fun hp => h (List.mem_of_mem_tail hp)

theorem componentOf_ne_rootDir (part : List Char) : componentOf part ≠ some .rootDir := by
  unfold componentOf
  split_ifs <;> simp

/-- **The paths of texts** have the root in front or not at all. -/
theorem rootFirst_ofString (s : String) : (ofString s).RootFirst := by
  have hrest : ∀ parts : List (List Char), .rootDir ∉ parts.filterMap componentOf := by
    intro parts hmem
    obtain ⟨part, -, hpart⟩ := List.mem_filterMap.1 hmem
    exact componentOf_ne_rootDir part hpart
  unfold ofString
  dsimp only
  cases firstOf ((s.toList.splitOn '/').headD []) ((s.toList.splitOn '/').tail ≠ []) with
  | none => exact RootFirst.of_not_mem (hrest _)
  | some c => exact hrest _

/-- A path with the root in front or not at all, joined to the path of a location. -/
theorem RootFirst.join_ofLoc {p : Path} (h : p.RootFirst) (d : Loc) :
    ((ofLoc d).join p).RootFirst ∧ ((ofLoc d).join p).isAbsolute = true := by
  unfold join
  by_cases habs : p.isAbsolute = true
  · rw [if_pos habs]
    exact ⟨h, habs⟩
  · rw [if_neg habs, if_neg (by simp [ofLoc])]
    have hno : .rootDir ∉ p := by
      intro hmem
      cases p with
      | nil => cases hmem
      | cons c cs =>
        rcases List.mem_cons.1 hmem with rfl | hmem
        · exact habs rfl
        · exact h hmem
    refine ⟨?_, rfl⟩
    show .rootDir ∉ d.map Component.normal ++ p.filter (· ≠ .curDir)
    simp [hno]

/-- One more component is not the root, but for the first. -/
theorem RootFirst.snoc {p : Path} {c : Component} (h : RootFirst (p ++ [c])) :
    p.RootFirst ∧ (c = .rootDir → p = []) := by
  cases p with
  | nil => exact ⟨by simp [RootFirst], fun _ => rfl⟩
  | cons b p =>
    unfold RootFirst at h ⊢
    simp only [List.cons_append, List.tail_cons, List.mem_append, List.mem_singleton, not_or] at h
    exact ⟨h.1, fun hc => absurd hc.symm h.2⟩

end Path

/-! ## Walks that meet no link -/

namespace FS

variable {fs : FS}

/-- No link stands anywhere. -/
def LinkFree (fs : FS) : Prop := ∀ l t, fs l ≠ some (.link t)

/-- No component of the path, looked at without following it, is a link. -/
def NoLinkOn (fs : FS) (cwd : Loc) (p : Path) : Prop :=
  ∀ q, q <+: p → ∀ l, fs.resolve false cwd q = .ok l → ∀ t, fs l ≠ some (.link t)

theorem LinkFree.noLinkOn (h : fs.LinkFree) (cwd : Loc) (p : Path) : fs.NoLinkOn cwd p := fun _ _ l _ t => h l t

/-- **A walk that meets no link** ends where the components say, with no link used. -/
theorem walk_locate {fl : Bool} {links : Nat} : ∀ {p : Path} {cur : Loc} {r : Loc × Nat},
    (∀ q, q <+: p → q ≠ [] → ∀ l m, fs.walk false links cur q = .ok (l, m) → ∀ t, fs l ≠ some (.link t)) →
    fs.walk fl links cur p = .ok r → r = (Path.locate cur p, links)
  | [], cur, r, _, hw => by
    rw [walk_nil] at hw
    exact (Except.ok.inj hw).symm
  | .rootDir :: cs, cur, r, hno, hw => by
    rw [walk_rootDir] at hw
    show r = (Path.locate [] cs, links)
    refine walk_locate (fun q hq _ l m hl => ?_) hw
    exact hno (.rootDir :: q) ((List.prefix_cons_inj _).2 hq) (by simp) l m (by rwa [walk_rootDir])
  | .curDir :: cs, cur, r, hno, hw => by
    rw [walk_curDir] at hw
    split at hw
    · rename_i hdir
      show r = (Path.locate cur cs, links)
      refine walk_locate (fun q hq _ l m hl => ?_) hw
      exact hno (.curDir :: q) ((List.prefix_cons_inj _).2 hq) (by simp) l m (by rwa [walk_curDir, if_pos hdir])
    · cases hw
  | .parentDir :: cs, cur, r, hno, hw => by
    rw [walk_parentDir] at hw
    split at hw
    · rename_i hdir
      show r = (Path.locate cur.dropLast cs, links)
      refine walk_locate (fun q hq _ l m hl => ?_) hw
      exact hno (.parentDir :: q) ((List.prefix_cons_inj _).2 hq) (by simp) l m (by rwa [walk_parentDir, if_pos hdir])
    · cases hw
  | .normal n :: cs, cur, r, hno, hw => by
    cases hdir : fs.isDir cur with
    | false =>
      rw [walk_notDir hdir] at hw
      cases hw
    | true =>
      cases hn : fs (cur ++ [n]) with
      | none =>
        rw [walk_missing hdir hn] at hw
        split at hw
        · rename_i hcs
          subst hcs
          exact (Except.ok.inj hw).symm
        · cases hw
      | some x =>
        -- What stands there is the first component, and no link.
        have hx : ∀ t, x ≠ .link t := by
          rintro t rfl
          refine hno [.normal n] (by simp) (by simp) (cur ++ [n]) links ?_ t hn
          rw [walk_link hdir hn, if_pos ⟨rfl, rfl⟩]
        rw [walk_plain hdir hn hx] at hw
        show r = (Path.locate (cur ++ [n]) cs, links)
        refine walk_locate (fun q hq _ l m hl => ?_) hw
        exact hno (.normal n :: q) ((List.prefix_cons_inj _).2 hq) (by simp) l m (by rwa [walk_plain hdir hn hx])

/-- **The location of a path** on which no link stands. -/
theorem resolve_locate {fl : Bool} {cwd l : Loc} {p : Path} (hno : fs.NoLinkOn cwd p)
    (hl : fs.resolve fl cwd p = .ok l) : l = Path.locate cwd p := by
  unfold resolve at hl
  split at hl
  · cases hl
  · obtain ⟨r, hw, rfl⟩ := Except.map_eq_ok.1 hl
    have hr : r = (Path.locate cwd p, maxLinks) := by
      refine walk_locate (fun q hq hne l m hw' => hno q hq l ?_) hw
      unfold resolve
      rw [if_neg hne, hw']
      rfl
    rw [hr]

namespace LinkFree

variable {fl : Bool} {links : Nat} {cur : Loc} {p : Path} {c : Component}

theorem walk_eq (h : fs.LinkFree) {r : Loc × Nat} (hw : fs.walk fl links cur p = .ok r) :
    r = (Path.locate cur p, links) :=
  walk_locate (fun _ _ _ l _ _ t => h l t) hw

/-- It does not matter whether the last component is followed. -/
theorem walk_follow (h : fs.LinkFree) : fs.walk fl links cur p = fs.walk true links cur p := by
  induction p generalizing cur with
  | nil => simp
  | cons c cs ih =>
    cases c with
    | rootDir => rw [walk_rootDir, walk_rootDir, ih]
    | curDir => rw [walk_curDir, walk_curDir, ih]
    | parentDir => rw [walk_parentDir, walk_parentDir, ih]
    | normal n =>
      cases hdir : fs.isDir cur with
      | false => rw [walk_notDir hdir, walk_notDir hdir]
      | true =>
        cases hn : fs (cur ++ [n]) with
        | none => rw [walk_missing hdir hn, walk_missing hdir hn]
        | some x =>
          have hx : ∀ t, x ≠ .link t := fun t ht => h _ t (ht ▸ hn)
          rw [walk_plain hdir hn hx, walk_plain hdir hn hx, ih]

/-- The last component is taken from where the others lead. -/
theorem walk_snoc_ok (h : fs.LinkFree) (hc : c ≠ .rootDir) {r : Loc × Nat} :
    fs.walk fl links cur (p ++ [c]) = .ok r ↔
      fs.walk fl links cur p = .ok (Path.locate cur p, links) ∧ fs.walk fl links (Path.locate cur p) [c] = .ok r := by
  have hfollow : fs.walk true links cur p = fs.walk fl links cur p := h.walk_follow.symm
  rw [walk_append fs fl ⟨c, [], rfl, hc⟩, hfollow]
  constructor
  · intro hw
    obtain ⟨s, hp, hw⟩ := Except.bind_eq_ok.1 hw
    obtain rfl := h.walk_eq hp
    exact ⟨hp, hw⟩
  · rintro ⟨hp, hw⟩
    rw [hp]
    exact hw

end LinkFree

end FS

end Posix
