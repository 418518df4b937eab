import Cryo.Lib.Act
import Cryo.Lib.Bytes
import Cryo.Lib.Path
import Mathlib.Logic.Function.Basic

/-!
# A file system with symbolic links, and path resolution

A file system maps locations to nodes. `walk` resolves a path from a directory as the kernel does: component by
component, `..` physically, a symbolic link replaced by its target, at most `maxLinks` links in one resolution. With
`followLast` off, a link in the last place is the result. A last name that does not exist resolves to the place where
it would be created.

* `walk_append`: a path is resolved piece by piece.
* `walk_snoc_noFollow`: the last name is looked up in the directory the rest resolves to.
* `walk_grows`: what a path resolved to it still does after nodes appeared that are not links.
* `walk_names`: names through plain directories lead where they say.
-/

namespace Posix

/-- What stands at a location. -/
inductive Node where
  | dir (mode : Nat)
  | file (content : Bytes) (mode : Nat) (mtime : Int)
  | link (target : Path)
  deriving DecidableEq

/-- What resolution sees of a node. -/
inductive Kind where
  | dir
  | file
  | link (target : Path)

def Node.kind : Node → Kind
  | .dir _ => .dir
  | .file _ _ _ => .file
  | .link t => .link t

theorem Node.kind_eq_link {x : Node} {t : Path} : x.kind = .link t ↔ x = .link t := by
  cases x <;> simp [Node.kind]

abbrev FS := Loc → Option Node

/-- The error numbers the model distinguishes. -/
inductive Errno where
  | noent
  | exist
  | notdir
  | isdir
  | loop
  | inval
  | unexpectedEof
  | io
  deriving DecidableEq, Repr

namespace FS

def isDir (fs : FS) (l : Loc) : Bool :=
  match fs l with
  | some (.dir _) => true
  | _ => false

theorem isDir_iff {fs : FS} {l : Loc} : fs.isDir l = true ↔ ∃ m, fs l = some (.dir m) := by
  unfold isDir
  split
  · rename_i m h; exact ⟨fun _ => ⟨m, h⟩, fun _ => rfl⟩
  · rename_i h; exact ⟨fun h' => by simp at h', fun ⟨m, hm⟩ => absurd hm (h m)⟩

/-- Looking a name up where there is no directory. -/
def notDirError (fs : FS) (l : Loc) : Errno := if fs l = none then .noent else .notdir

/-- One pass over the components with `links` links left; `jump` continues behind a link. -/
def walkWith (fs : FS) (followLast : Bool) (links : Nat) (jump : Loc → Path → Except Errno (Loc × Nat)) :
    Loc → Path → Except Errno (Loc × Nat)
  | cur, [] => .ok (cur, links)
  | _, .rootDir :: cs => walkWith fs followLast links jump [] cs
  | cur, .curDir :: cs =>
    if fs.isDir cur then walkWith fs followLast links jump cur cs else .error (fs.notDirError cur)
  | cur, .parentDir :: cs =>
    if fs.isDir cur then walkWith fs followLast links jump cur.dropLast cs else .error (fs.notDirError cur)
  | cur, .normal n :: cs =>
    if fs.isDir cur then
      match fs (cur ++ [n]) with
      | none => if cs = [] then .ok (cur ++ [n], links) else .error .noent
      | some (.link t) =>
        if cs = [] ∧ followLast = false then .ok (cur ++ [n], links) else jump cur (t ++ cs)
      | some _ => walkWith fs followLast links jump (cur ++ [n]) cs
    else .error (fs.notDirError cur)

/-- Resolution with at most `links` links: the location and the links left. -/
def walk (fs : FS) (followLast : Bool) : Nat → Loc → Path → Except Errno (Loc × Nat)
  | 0 => walkWith fs followLast 0 (fun _ _ => .error .loop)
  | links + 1 => walkWith fs followLast (links + 1) (walk fs followLast links)

/-- Links followed in one resolution before it fails. -/
def maxLinks : Nat := 40

/-- The location of a path, seen from the working directory. -/
def resolve (fs : FS) (followLast : Bool) (cwd : Loc) (p : Path) : Except Errno Loc :=
  if p = [] then .error .noent else (fs.walk followLast maxLinks cwd p).map (·.1)

/-! ## One component -/

/-- What stands behind a link, with `links` left. -/
def jumpOf (fs : FS) (followLast : Bool) : Nat → Loc → Path → Except Errno (Loc × Nat)
  | 0 => fun _ _ => .error .loop
  | links + 1 => walk fs followLast links

theorem walk_eq (fs : FS) (fl : Bool) (links : Nat) :
    fs.walk fl links = walkWith fs fl links (jumpOf fs fl links) := by
  cases links <;> rfl

@[simp] theorem walk_nil (fs : FS) (fl : Bool) (links : Nat) (cur : Loc) :
    fs.walk fl links cur [] = .ok (cur, links) := by rw [walk_eq]; rfl

@[simp] theorem walk_rootDir (fs : FS) (fl : Bool) (links : Nat) (cur : Loc) (cs : Path) :
    fs.walk fl links cur (.rootDir :: cs) = fs.walk fl links [] cs := by rw [walk_eq]; rfl

theorem walk_curDir (fs : FS) (fl : Bool) (links : Nat) (cur : Loc) (cs : Path) :
    fs.walk fl links cur (.curDir :: cs) =
      if fs.isDir cur then fs.walk fl links cur cs else .error (fs.notDirError cur) := by rw [walk_eq]; rfl

theorem walk_parentDir (fs : FS) (fl : Bool) (links : Nat) (cur : Loc) (cs : Path) :
    fs.walk fl links cur (.parentDir :: cs) =
      if fs.isDir cur then fs.walk fl links cur.dropLast cs else .error (fs.notDirError cur) := by rw [walk_eq]; rfl

theorem walk_notDir {fs : FS} {cur : Loc} (h : fs.isDir cur = false) (fl : Bool) (links : Nat) (n : String)
    (cs : Path) : fs.walk fl links cur (.normal n :: cs) = .error (fs.notDirError cur) := by
  rw [walk_eq, walkWith, if_neg (by simp [h])]

theorem walk_missing {fs : FS} {cur : Loc} {n : String} (h : fs.isDir cur = true) (hn : fs (cur ++ [n]) = none)
    (fl : Bool) (links : Nat) (cs : Path) :
    fs.walk fl links cur (.normal n :: cs) = if cs = [] then .ok (cur ++ [n], links) else .error .noent := by
  rw [walk_eq, walkWith, if_pos h, hn]

theorem walk_link {fs : FS} {cur : Loc} {n : String} {t : Path} (h : fs.isDir cur = true)
    (hn : fs (cur ++ [n]) = some (.link t)) (fl : Bool) (links : Nat) (cs : Path) :
    fs.walk fl links cur (.normal n :: cs) =
      if cs = [] ∧ fl = false then .ok (cur ++ [n], links) else jumpOf fs fl links cur (t ++ cs) := by
  rw [walk_eq, walkWith, if_pos h, hn]

theorem walk_plain {fs : FS} {cur : Loc} {n : String} {x : Node} (h : fs.isDir cur = true)
    (hn : fs (cur ++ [n]) = some x) (hx : ∀ t, x ≠ .link t) (fl : Bool) (links : Nat) (cs : Path) :
    fs.walk fl links cur (.normal n :: cs) = fs.walk fl links (cur ++ [n]) cs := by
  rw [walk_eq, walkWith, if_pos h, hn]
  cases x with
  | link t => exact absurd rfl (hx t)
  | dir m => rfl
  | file c m t => rfl

/-! ## Piece by piece -/

/-- Induction along a resolution: on the links left, then on the components. -/
theorem walk_rule {motive : Nat → Loc → Path → Prop} (nil : ∀ links cur, motive links cur [])
    (rootDir : ∀ links cur cs, motive links [] cs → motive links cur (.rootDir :: cs))
    (curDir : ∀ links cur cs, motive links cur cs → motive links cur (.curDir :: cs))
    (parentDir : ∀ links cur cs, motive links cur.dropLast cs → motive links cur (.parentDir :: cs))
    (normal : ∀ links cur n cs, motive links (cur ++ [n]) cs →
      (∀ m, links = m + 1 → ∀ t, motive m cur (t ++ cs)) → motive links cur (.normal n :: cs)) :
    ∀ links cur p, motive links cur p := by
  have pass : ∀ links, (∀ m, links = m + 1 → ∀ cur p, motive m cur p) → ∀ p cur, motive links cur p := by
    intro links hl p
    induction p with
    | nil => exact nil links
    | cons c cs ih =>
      intro cur
      cases c with
      | rootDir => exact rootDir links cur cs (ih [])
      | curDir => exact curDir links cur cs (ih cur)
      | parentDir => exact parentDir links cur cs (ih cur.dropLast)
      | normal n => exact normal links cur n cs (ih (cur ++ [n])) (fun m hm t => hl m hm cur (t ++ cs))
  intro links
  induction links with
  | zero => exact fun cur p => pass 0 (fun m hm => by omega) p cur
  | succ links ih => exact fun cur p => pass (links + 1) (fun m hm => by cases hm; exact ih) p cur

/-- `b` can stand behind another path. -/
def Continues (b : Path) : Prop := ∃ c cs, b = c :: cs ∧ c ≠ .rootDir

theorem walk_continues_notDir {fs : FS} {cur : Loc} (h : fs.isDir cur = false) {b : Path} (hb : Continues b)
    (fl : Bool) (links : Nat) : fs.walk fl links cur b = .error (fs.notDirError cur) := by
  obtain ⟨c, cs, rfl, hc⟩ := hb
  cases c with
  | rootDir => exact absurd rfl hc
  | curDir => rw [walk_curDir, if_neg (by simp [h])]
  | parentDir => rw [walk_parentDir, if_neg (by simp [h])]
  | normal n => exact walk_notDir h fl links n cs

theorem Continues.ne_nil {b : Path} (hb : Continues b) : b ≠ [] := by
  obtain ⟨c, cs, rfl, _⟩ := hb; simp

/-- **A path is resolved piece by piece**, with the links the first piece left. -/
theorem walk_append (fs : FS) (fl : Bool) {b : Path} (hb : Continues b) : ∀ (links : Nat) (cur : Loc) (a : Path),
    fs.walk fl links cur (a ++ b) = (fs.walk true links cur a).bind (fun r => fs.walk fl r.2 r.1 b) := by
  apply walk_rule
  case nil => intro links cur; rw [walk_nil]; rfl
  case rootDir => intro links cur cs ih; simpa using ih
  case curDir =>
    intro links cur cs ih
    simp only [List.cons_append, walk_curDir]
    split
    · exact ih
    · rfl
  case parentDir =>
    intro links cur cs ih
    simp only [List.cons_append, walk_parentDir]
    split
    · exact ih
    · rfl
  case normal =>
    intro links cur n cs ih ihj
    rw [List.cons_append]
    cases hd : fs.isDir cur with
    | false => rw [walk_notDir hd, walk_notDir hd]; rfl
    | true =>
      cases hn : fs (cur ++ [n]) with
      | none =>
        have hm : fs.isDir (cur ++ [n]) = false := by simp [isDir, hn]
        rw [walk_missing hd hn, walk_missing hd hn, if_neg (by simp [hb.ne_nil])]
        by_cases hcs : cs = []
        · rw [if_pos hcs]
          show _ = fs.walk fl links (cur ++ [n]) b
          rw [walk_continues_notDir hm hb, notDirError, if_pos hn]
        · rw [if_neg hcs]; rfl
      | some x =>
        by_cases hx : ∃ t, x = .link t
        · obtain ⟨t, rfl⟩ := hx
          rw [walk_link hd hn, walk_link hd hn, if_neg (by simp [hb.ne_nil]), if_neg (by simp), ← List.append_assoc]
          cases links with
          | zero => rfl
          | succ m => exact ihj m rfl t
        · have hx' : ∀ t, x ≠ .link t := fun t ht => hx ⟨t, ht⟩
          rw [walk_plain hd hn hx', walk_plain hd hn hx']
          exact ih

theorem continues_normal (n : String) (cs : Path) : Continues (.normal n :: cs) := ⟨_, _, rfl, by simp⟩

theorem continues_ofNames {ns : List String} (h : ns ≠ []) : Continues (Path.ofNames ns) := by
  obtain ⟨n, ns, rfl⟩ := List.exists_cons_of_ne_nil h
  exact continues_normal n _

/-- The last name, not followed, is an entry of the directory the rest resolves to. -/
theorem walk_snoc_noFollow {fs : FS} {links : Nat} {cur l : Loc} {p : Path} {n : String} {m : Nat}
    (h : fs.walk false links cur (p ++ [.normal n]) = .ok (l, m)) :
    ∃ d, fs.walk true links cur p = .ok (d, m) ∧ fs.isDir d = true ∧ l = d ++ [n] := by
  rw [walk_append fs false (continues_normal n [])] at h
  cases hp : fs.walk true links cur p with
  | error e => rw [hp] at h; cases h
  | ok r =>
    obtain ⟨d, k⟩ := r
    rw [hp] at h
    change fs.walk false k d [.normal n] = .ok (l, m) at h
    cases hd : fs.isDir d with
    | false => rw [walk_notDir hd] at h; cases h
    | true =>
      have hstay : fs.walk false k d [.normal n] = .ok (d ++ [n], k) := by
        cases hn : fs (d ++ [n]) with
        | none => rw [walk_missing hd hn]; rfl
        | some x =>
          by_cases hx : ∃ t, x = .link t
          · obtain ⟨t, rfl⟩ := hx; rw [walk_link hd hn]; rfl
          · rw [walk_plain hd hn (fun t ht => hx ⟨t, ht⟩), walk_nil]
      rw [hstay] at h
      cases h
      exact ⟨d, rfl, hd, rfl⟩

/-- Names through plain directories lead where they say; a link in the last place is the result when it is not
followed. -/
theorem walk_names {fs : FS} {fl : Bool} {links : Nat} : ∀ {ns : List String} {cur : Loc},
    (∀ pre, pre <+: ns → pre ≠ ns → fs.isDir (cur ++ pre) = true) →
    (∀ t, fs (cur ++ ns) = some (.link t) → fl = false) →
    fs.walk fl links cur (Path.ofNames ns) = .ok (cur ++ ns, links)
  | [], cur, _, _ => by simp [Path.ofNames]
  | n :: ns, cur, hdir, hlast => by
    have hcur : fs.isDir cur = true := by simpa using hdir [] List.nil_prefix (by simp)
    show fs.walk fl links cur (.normal n :: Path.ofNames ns) = _
    cases ns with
    | nil =>
      show fs.walk fl links cur [.normal n] = _
      cases hn : fs (cur ++ [n]) with
      | none => rw [walk_missing hcur hn, if_pos rfl]
      | some x =>
        by_cases hx : ∃ t, x = .link t
        · obtain ⟨t, rfl⟩ := hx
          rw [walk_link hcur hn, if_pos ⟨rfl, hlast t hn⟩]
        · rw [walk_plain hcur hn (fun t ht => hx ⟨t, ht⟩)]; exact walk_nil _ _ _ _
    | cons n' ns =>
      have hn : fs.isDir (cur ++ [n]) = true :=
        hdir [n] ((List.prefix_cons_inj n).2 List.nil_prefix) (by simp)
      obtain ⟨m, hm⟩ := isDir_iff.1 hn
      rw [walk_plain hcur hm (by simp), walk_names, List.append_assoc, List.singleton_append]
      · intro pre hpre hne
        rw [List.append_assoc, List.singleton_append]
        exact hdir (n :: pre) ((List.prefix_cons_inj n).2 hpre) (by simpa using hne)
      · rw [List.append_assoc, List.singleton_append]; exact hlast

/-! ## Other nodes appear -/

/-- `fs'` has the nodes of `fs`, of the same kinds, and maybe new ones that are not links. -/
def Grows (fs fs' : FS) : Prop :=
  ∀ l, (fs' l).map Node.kind = (fs l).map Node.kind ∨ (fs l = none ∧ ∀ t, fs' l ≠ some (.link t))

theorem Grows.refl (fs : FS) : Grows fs fs := fun _ => .inl rfl

theorem Grows.trans {fs₁ fs₂ fs₃ : FS} (h : Grows fs₁ fs₂) (h' : Grows fs₂ fs₃) : Grows fs₁ fs₃ := by
  intro l
  rcases h l with h1 | ⟨h1, h2⟩ <;> rcases h' l with h3 | ⟨h3, h4⟩
  · exact .inl (h3.trans h1)
  · rw [h3] at h1
    exact .inr ⟨by simpa using h1.symm, h4⟩
  · refine .inr ⟨h1, fun t ht => ?_⟩
    rw [ht] at h3
    cases hx : fs₂ l with
    | none => rw [hx] at h3; cases h3
    | some x =>
      rw [hx] at h3
      cases x <;> simp [Node.kind] at h3
      exact h2 _ hx
  · exact .inr ⟨h1, h4⟩

/-- Putting a node in place of one of the same kind, or one that is not a link where nothing was. -/
theorem grows_update {fs : FS} {l : Loc} {x : Node}
    (h : (fs l).map Node.kind = some x.kind ∨ (fs l = none ∧ ∀ t, x ≠ .link t)) :
    Grows fs (Function.update fs l (some x)) := by
  intro l'
  by_cases hl : l' = l
  · subst hl
    rw [Function.update_self]
    rcases h with h | ⟨h, hx⟩
    · exact .inl h.symm
    · exact .inr ⟨h, fun t ht => hx t (Option.some.inj ht)⟩
  · rw [Function.update_of_ne hl]
    exact .inl rfl

/-- A node that is not a link stays one of its kind. -/
theorem Grows.same {fs fs' : FS} (h : Grows fs fs') {l : Loc} {x : Node} (hx : fs l = some x) :
    ∃ y, fs' l = some y ∧ y.kind = x.kind := by
  rcases h l with h | ⟨h, _⟩
  · rw [hx] at h; exact Option.map_eq_some_iff.1 h
  · rw [hx] at h; cases h

theorem isDir_of_same {fs fs' : FS} (h : ∀ l x, fs l = some x → ∃ y, fs' l = some y ∧ y.kind = x.kind) {l : Loc}
    (hd : fs.isDir l = true) : fs'.isDir l = true := by
  obtain ⟨m, hm⟩ := isDir_iff.1 hd
  obtain ⟨y, hy, hk⟩ := h l _ hm
  cases y with
  | dir m => exact isDir_iff.2 ⟨m, hy⟩
  | file c m t => cases hk
  | link t => cases hk

theorem Grows.isDir {fs fs' : FS} (h : Grows fs fs') {l : Loc} (hd : fs.isDir l = true) : fs'.isDir l = true :=
  isDir_of_same (fun _ _ hx => h.same hx) hd

/-- What a path resolved to it still does when every node that stood is there, of its kind, and no link appeared where
the path leads. -/
theorem walk_same {fs fs' : FS} (h : ∀ l x, fs l = some x → ∃ y, fs' l = some y ∧ y.kind = x.kind) {fl : Bool} :
    ∀ (links : Nat) (cur : Loc) (p : Path) {r : Loc × Nat}, fs.walk fl links cur p = .ok r →
      (fs r.1 = none → ∀ t, fs' r.1 ≠ some (.link t)) → fs'.walk fl links cur p = .ok r := by
  apply walk_rule
  case nil => intro links cur r hw _; rw [walk_nil] at hw ⊢; exact hw
  case rootDir => intro links cur cs ih r hw hr; rw [walk_rootDir] at hw ⊢; exact ih hw hr
  case curDir =>
    intro links cur cs ih r hw hr
    rw [walk_curDir] at hw ⊢
    split at hw
    · rename_i hd; rw [if_pos (isDir_of_same h hd)]; exact ih hw hr
    · cases hw
  case parentDir =>
    intro links cur cs ih r hw hr
    rw [walk_parentDir] at hw ⊢
    split at hw
    · rename_i hd; rw [if_pos (isDir_of_same h hd)]; exact ih hw hr
    · cases hw
  case normal =>
    intro links cur n cs ih ihj r hw hr
    cases hd : fs.isDir cur with
    | false => rw [walk_notDir hd] at hw; cases hw
    | true =>
      have hd' := isDir_of_same h hd
      cases hn : fs (cur ++ [n]) with
      | none =>
        -- only the last name may be missing; a node that appeared there is the result as well
        rw [walk_missing hd hn] at hw
        split at hw
        · rename_i hcs
          subst hcs
          cases hw
          cases hn' : fs' (cur ++ [n]) with
          | none => rw [walk_missing hd' hn', if_pos rfl]
          | some y => rw [walk_plain hd' hn' (fun t ht => hr hn t (by rw [hn', ht])), walk_nil]
        · cases hw
      | some x =>
        obtain ⟨y, hy, hyk⟩ := h _ _ hn
        by_cases hx : ∃ t, x = .link t
        · obtain ⟨t, rfl⟩ := hx
          obtain rfl : y = .link t := Node.kind_eq_link.1 hyk
          rw [walk_link hd hn] at hw
          rw [walk_link hd' hy]
          split
          · rename_i hlast; rw [if_pos hlast] at hw; exact hw
          · rename_i hlast
            rw [if_neg hlast] at hw
            cases links with
            | zero => cases hw
            | succ k => exact ihj k rfl t hw hr
        · have hx' : ∀ t, x ≠ .link t := fun t ht => hx ⟨t, ht⟩
          have hy' : ∀ t, y ≠ .link t := by
            rintro t rfl
            exact hx' t (Node.kind_eq_link.1 hyk.symm)
          rw [walk_plain hd hn hx'] at hw
          rw [walk_plain hd' hy hy']
          exact ih hw hr

/-- **Resolution is stable** when nodes appear that are not links, or change without changing their kind. -/
theorem walk_grows {fs fs' : FS} (h : Grows fs fs') {fl : Bool} (links : Nat) (cur : Loc) (p : Path) {r : Loc × Nat}
    (hw : fs.walk fl links cur p = .ok r) : fs'.walk fl links cur p = .ok r := by
  refine walk_same (fun _ _ hx => h.same hx) links cur p hw fun hnone t ht => ?_
  rcases h r.1 with hk | ⟨_, hl⟩
  · rw [hnone, ht] at hk
    cases hk
  · exact hl t ht

theorem resolve_grows {fs fs' : FS} (h : Grows fs fs') {fl : Bool} {cwd l : Loc} {p : Path}
    (hr : fs.resolve fl cwd p = .ok l) : fs'.resolve fl cwd p = .ok l := by
  unfold resolve at hr ⊢
  split at hr
  · cases hr
  · rename_i hp
    obtain ⟨r, hw, rfl⟩ := Except.map_eq_ok.1 hr
    rw [if_neg hp, walk_grows h _ _ _ hw]
    rfl

end FS
end Posix
