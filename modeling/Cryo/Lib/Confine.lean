import Cryo.Lib.Directories

/-!
# Staying below a directory

Names below a directory lead to places below it as long as the links that stand there do (`LinksInside`,
`LinksInside.resolve`), and resolution does not see what appears where nothing stood (`walk_kept`).

`Confined w₀ R w` says of a run from `w₀` to `w` that every change was made below `R`, provided that before each change
the links below `R` led inside. A piece of a run keeps it when its own changes lie below `R` under the same proviso
(`Confined.leads`).
-/

namespace Posix

namespace FS

variable {fs fs' : FS} {R : Loc}

/-- Every link that stands below `R` leads to a place below `R`, or nowhere. -/
def LinksInside (fs : FS) (R : Loc) : Prop := ∀ d n t links l m, R <+: d → fs (d ++ [n]) = some (.link t) →
  links ≤ maxLinks → fs.walk true links d [.normal n] = .ok (l, m) → R <+: l

/-- What a path resolved to it still does when every node that stood is unchanged. -/
theorem walk_kept (h : ∀ l, fs l ≠ none → fs' l = fs l) {fl : Bool} (links : Nat) (cur : Loc) (p : Path)
    {r : Loc × Nat} (hw : fs.walk fl links cur p = .ok r) (hr : fs r.1 ≠ none) : fs'.walk fl links cur p = .ok r :=
  walk_same (fun l x hx => ⟨x, by rw [h l (by simp [hx]), hx], rfl⟩) links cur p hw fun hnone => absurd hnone hr

theorem resolve_kept (h : ∀ l, fs l ≠ none → fs' l = fs l) {fl : Bool} {cwd l : Loc} {p : Path}
    (hr : fs.resolve fl cwd p = .ok l) (hl : fs l ≠ none) : fs'.resolve fl cwd p = .ok l := by
  unfold resolve at hr ⊢
  split at hr
  · cases hr
  · rename_i hp
    obtain ⟨r, hw, rfl⟩ := Except.map_eq_ok.1 hr
    rw [if_neg hp, walk_kept h _ _ _ hw hl]
    rfl

/-- One name below `R`. -/
theorem LinksInside.walk_name (h : fs.LinksInside R) {links m : Nat} (hk : links ≤ maxLinks) {cur l : Loc} {n : String}
    (hcur : R <+: cur) (hw : fs.walk true links cur [.normal n] = .ok (l, m)) : R <+: l := by
  have hstay : R <+: cur ++ [n] := hcur.trans (List.prefix_append _ _)
  cases hd : fs.isDir cur with
  | false => rw [walk_notDir hd] at hw; cases hw
  | true =>
    cases hn : fs (cur ++ [n]) with
    | none => rw [walk_missing hd hn, if_pos rfl] at hw; cases hw; exact hstay
    | some x =>
      by_cases hx : ∃ t, x = .link t
      · obtain ⟨t, rfl⟩ := hx
        exact h cur n t links l m hcur hn hk hw
      · rw [walk_plain hd hn fun t ht => hx ⟨t, ht⟩, walk_nil] at hw
        cases hw
        exact hstay

/-- **Names below `R` lead below `R`** when its links do. -/
theorem LinksInside.walk_names (h : fs.LinksInside R) : ∀ {ns : List String} {links m : Nat} {cur l : Loc},
    links ≤ maxLinks → R <+: cur → fs.walk true links cur (Path.ofNames ns) = .ok (l, m) → R <+: l
  | [], links, m, cur, l, _, hcur, hw => by
    obtain ⟨rfl, _⟩ := Prod.mk.inj (Except.ok.inj ((walk_nil _ _ _ _).symm.trans hw))
    exact hcur
  | [n], links, m, cur, l, hk, hcur, hw => h.walk_name hk hcur hw
  | n :: n' :: ns, links, m, cur, l, hk, hcur, hw => by
    have hsplit : Path.ofNames (n :: n' :: ns) = [.normal n] ++ Path.ofNames (n' :: ns) := rfl
    rw [hsplit, walk_append fs true (continues_ofNames (by simp))] at hw
    obtain ⟨⟨d, k⟩, hhead, hw⟩ := Except.bind_eq_ok.1 hw
    exact h.walk_names ((walk_links_le _ _ _ hhead).trans hk) (h.walk_name hk hcur hhead) hw

/-- **Names below a root lead below it**, whether the last is followed or not. -/
theorem LinksInside.resolve (h : fs.LinksInside R) {cwd l : Loc} {root : Path} {fl : Bool} {ns : List String}
    (hroot : fs.resolve true cwd root = .ok R) (hns : ns ≠ [])
    (hl : fs.resolve fl cwd (root ++ Path.ofNames ns) = .ok l) : R <+: l := by
  obtain ⟨links, hk, heq⟩ := resolve_append fl hroot hns
  rw [heq] at hl
  obtain ⟨⟨l, m⟩, hw, rfl⟩ := Except.map_eq_ok.1 hl
  cases fl with
  | true => exact h.walk_names hk (List.prefix_refl R) hw
  | false =>
    obtain ⟨ns, n, rfl⟩ : ∃ ns' n, ns = ns' ++ [n] := (List.eq_nil_or_concat' ns).resolve_left hns
    rw [Path.ofNames_append] at hw
    obtain ⟨d, hd, _, rfl⟩ := walk_snoc_noFollow hw
    exact (h.walk_names hk (List.prefix_refl R) hd).trans (List.prefix_append d [n])

end FS

namespace World

/-- Strictly below a directory. -/
def Below (R l : Loc) : Prop := R <+: l ∧ l ≠ R

/-- Before each change of `log` every link below `R` leads inside. -/
def Guarded (R : Loc) (fs : FS) (log : List Change) : Prop :=
  ∀ pre ch, pre ++ [ch] <+: log → (fs.replay pre).LinksInside R

variable {w₀ w w' : World} {R : Loc}

theorem replay_below {fs : FS} {l : Loc} (hl : ¬ Below R l) : ∀ {log : List Change},
    (∀ ch ∈ log, Below R ch.loc) → fs.replay log l = fs l := by
  intro log hlog
  induction log generalizing fs with
  | nil => rfl
  | cons ch log ih =>
    have hne : l ≠ ch.loc := fun heq => hl (heq ▸ hlog ch List.mem_cons_self)
    show FS.replay (Function.update fs ch.loc ch.node) log l = fs l
    rw [ih fun c hc => hlog c (List.mem_cons_of_mem ch hc), Function.update_of_ne hne]

/-- Every change since `w₀` was made below `R`, provided that before each one the links below `R` led inside. -/
structure Confined (w₀ : World) (R : Loc) (w : World) : Prop where
  run : ∃ new, w.log = w₀.log ++ new ∧ w.fs = w₀.fs.replay new ∧
    (Guarded R w₀.fs new → ∀ ch ∈ new, Below R ch.loc)
  cwd : w.cwd = w₀.cwd

theorem Confined.refl (w : World) (R : Loc) : Confined w R w := ⟨⟨[], by simp, rfl, by simp⟩, rfl⟩

/-- **A piece of a run** whose changes lie below `R`, when what does not is as it was and the links lead inside. -/
theorem Confined.leads (h : Confined w₀ R w) {P : Change → Prop} (hl : w.Leads P w')
    (hP : (∀ l, ¬ Below R l → w.fs l = w₀.fs l) → w.fs.LinksInside R → ∀ ch, P ch → Below R ch.loc) :
    Confined w₀ R w' := by
  obtain ⟨new, hlog, hfs, hin⟩ := h.run
  obtain ⟨more, hlog', hmore, hfs'⟩ := hl.changes
  refine ⟨⟨new ++ more, by rw [hlog', hlog, List.append_assoc], by rw [hfs', hfs, FS.replay_append],
    fun hguard ch hch => ?_⟩, hl.cwd.trans h.cwd⟩
  have hnew := hin fun pre ch hpre => hguard pre ch (hpre.trans (List.prefix_append _ _))
  rcases List.mem_append.1 hch with hch | hch
  · exact hnew ch hch
  · refine hP (fun l hl => by rw [hfs, replay_below hl hnew]) ?_ ch (hmore ch hch)
    obtain ⟨c, cs, rfl⟩ := List.exists_cons_of_ne_nil (List.ne_nil_of_mem hch)
    rw [hfs]
    exact hguard new c ⟨cs, by simp⟩

theorem Confined.tick (h : Confined w₀ R w) : Confined w₀ R w.tick :=
  h.leads (Leads.tick (fun _ => False) w) fun _ _ _ hch => hch.elim

/-! ## An empty root -/

/-- `root` leads to the empty directory `R`. -/
structure EmptyRoot (w : World) (root : Path) (R : Loc) : Prop where
  resolves : w.resolve true root = .ok R
  isDir : w.fs.isDir R = true
  empty : ∀ ns, ns ≠ [] → w.fs (R ++ ns) = none

variable {root : Path}

/-- As long as all changes lie below it the root leads where it did. -/
theorem EmptyRoot.same (hroot : EmptyRoot w₀ root R) (hcwd : w.cwd = w₀.cwd)
    (hsame : ∀ l, ¬ Below R l → w.fs l = w₀.fs l) : w.resolve true root = .ok R ∧ w.fs.isDir R = true := by
  have hkept : ∀ l, w₀.fs l ≠ none → w.fs l = w₀.fs l := by
    refine fun l hl => hsame l ?_
    rintro ⟨⟨ns, rfl⟩, hne⟩
    exact hl (hroot.empty ns (by simpa using hne))
  obtain ⟨m, hm⟩ := FS.isDir_iff.1 hroot.isDir
  refine ⟨?_, FS.isDir_iff.2 ⟨m, by rw [hkept R (by simp [hm]), hm]⟩⟩
  unfold resolve
  rw [hcwd]
  exact FS.resolve_kept hkept hroot.resolves (by simp [hm])

/-- **Where a call on names below the root makes or changes something** it is below the root. -/
theorem EmptyRoot.below (hroot : EmptyRoot w₀ root R) (h : Confined w₀ R w)
    (hsame : ∀ l, ¬ Below R l → w.fs l = w₀.fs l) (hlinks : w.fs.LinksInside R) {fl : Bool} {ns : List String} {l : Loc}
    (hl : w.resolve fl (root ++ Path.ofNames ns) = .ok l)
    (hfree : fl = true ∧ w.fs.isDir l = false ∨ w.fs l = none) : Below R l := by
  obtain ⟨hres, hdir⟩ := hroot.same h.cwd hsame
  have hnot : w.fs.isDir l = false := by
    rcases hfree with ⟨_, hnot⟩ | hnone
    · exact hnot
    · simp [FS.isDir, hnone]
  have hne : l ≠ R := by
    rintro rfl
    rw [hdir] at hnot
    cases hnot
  by_cases hns : ns = []
  · rw [hns, Path.ofNames, List.map_nil, List.append_nil] at hl
    obtain ⟨m, hm⟩ := FS.isDir_iff.1 hdir
    rcases hfree with ⟨rfl, _⟩ | hnone
    · exact absurd (Except.ok.inj (hl.symm.trans hres)) hne
    · cases fl with
      | true => exact absurd (Except.ok.inj (hl.symm.trans hres)) hne
      | false =>
        -- a root that exists is something, followed or not
        obtain ⟨l', hl', hsome⟩ := FS.resolve_noFollow hres (by simp [hm])
        obtain rfl : l = l' := Except.ok.inj (hl.symm.trans hl')
        exact absurd hnone hsome
  · exact ⟨hlinks.resolve hres hns hl, hne⟩

end World

/-! ## Calls below an empty root -/

open World

variable {w₀ : World} {root : Path} {R : Loc}

theorem keeps_canonicalize (p : Path) : Act.Keeps (Confined w₀ R) (canonicalize p) := fun _ h =>
  wp_canonicalize (fun _ _ _ => h.tick) fun _ _ => h.tick

/-- Making a directory at names below the root. -/
theorem keeps_mkdir (hroot : EmptyRoot w₀ root R) (ns : List String) :
    Act.Keeps (Confined w₀ R) (mkdir (root ++ Path.ofNames ns)) := by
  intro w h
  refine wp_mkdir (fun l hl hnone => ?_) fun _ _ => h.tick
  refine h.leads (Leads.emit (P := fun ch => ch.loc = l) w rfl) ?_
  rintro hsame hlinks ch rfl
  exact hroot.below h hsame hlinks hl (.inr hnone)

/-- Making a link at names below the root. -/
theorem keeps_symlink (hroot : EmptyRoot w₀ root R) (target : Path) (ns : List String) :
    Act.Keeps (Confined w₀ R) (symlink target (root ++ Path.ofNames ns)) := by
  intro w h
  refine wp_symlink (fun l hl hnone _ => ?_) fun _ _ => h.tick
  refine h.leads (Leads.emit (P := fun ch => ch.loc = l) w rfl) ?_
  rintro hsame hlinks ch rfl
  exact hroot.below h hsame hlinks hl (.inr hnone)

/-- Nothing is made at a path that leads to a directory while all changes lie below the root. -/
theorem keeps_createDirAll_isDir {p : Path}
    (hp : ∀ w, Confined w₀ R w → (∀ l, ¬ Below R l → w.fs l = w₀.fs l) →
      ∃ l, w.resolve true p = .ok l ∧ w.fs.isDir l = true) :
    Act.Keeps (Confined w₀ R) (createDirAll p) := by
  intro w h
  by_cases hsame : ∀ l, ¬ Below R l → w.fs l = w₀.fs l
  · obtain ⟨l, hl, hdir⟩ := hp w h hsame
    refine Act.wp_mono (wp_createDirAll_there hl hdir fun _ => False) ?_ ?_
    · exact fun _ _ hl => h.leads hl.1 fun _ _ _ hch => hch.elim
    · exact fun _ _ hl => h.leads hl.1 fun _ _ _ hch => hch.elim
  · refine Act.wp_mono (createDirAllRev_leads (P := fun _ => True) (fun _ _ => trivial) _ w) ?_ ?_
    · exact fun _ _ hl => h.leads hl fun hs => absurd hs hsame
    · exact fun _ _ hl => h.leads hl fun hs => absurd hs hsame

/-- Making directories along names below the root. -/
theorem keeps_createDirAll (hroot : EmptyRoot w₀ root R) (ns : List String) :
    Act.Keeps (Confined w₀ R) (createDirAll (root ++ Path.ofNames ns)) := by
  induction ns using List.reverseRecOn with
  | nil =>
    rw [Path.ofNames, List.map_nil, List.append_nil]
    exact keeps_createDirAll_isDir fun w h hsame => ⟨R, hroot.same h.cwd hsame⟩
  | append_singleton ns n ih =>
    have hfix : root ++ Path.ofNames (ns ++ [n]) = (root ++ Path.ofNames ns) ++ [.normal n] := by
      rw [Path.ofNames_append, List.append_assoc]; rfl
    have hor : ∀ e, Act.Keeps (Confined w₀ R) (orIsDir (root ++ Path.ofNames (ns ++ [n])) e) := by
      intro e w h
      rw [orIsDir, Act.wp_bind]
      exact wp_pathIsDir (fun _ _ _ => h.tick) fun _ => h.tick
    intro w h
    rw [hfix, createDirAll_unfold, Act.wp_tryCatch, ← hfix]
    refine Act.wp_mono (keeps_mkdir hroot (ns ++ [n]) w h) (fun _ _ h => h) fun e w₁ h₁ => ?_
    split
    · rw [Act.wp_bind]
      refine Act.wp_mono (ih w₁ h₁) (fun _ w₂ h₂ => ?_) fun _ _ h => h
      rw [Act.wp_tryCatch]
      exact Act.wp_mono (keeps_mkdir hroot (ns ++ [n]) w₂ h₂) (fun _ _ h => h) (hor ·)
    · exact hor e w₁ h₁

/-- The parent of a root that leads to a directory is one. -/
theorem parent_isDir {w : World} {p : Path} (hp : root.parent = some p) (hne : p ≠ [])
    (hroot : w.resolve true root = .ok R) : ∃ l, w.resolve true p = .ok l ∧ w.fs.isDir l = true := by
  obtain ⟨c, hc, rfl⟩ : ∃ c, c ≠ .rootDir ∧ root = p ++ [c] := by
    rcases List.eq_nil_or_concat' root with rfl | ⟨q, c, rfl⟩
    · cases hp
    · refine ⟨c, ?_, ?_⟩
      · rintro rfl
        simp [Path.parent] at hp
      · cases c <;> simp [Path.parent] at hp ⊢ <;> exact hp
  have hcont : FS.Continues [c] := ⟨c, [], rfl, hc⟩
  unfold World.resolve FS.resolve at hroot ⊢
  rw [if_neg (by simp)] at hroot
  obtain ⟨r, hw, _⟩ := Except.map_eq_ok.1 hroot
  rw [FS.walk_append w.fs true hcont] at hw
  obtain ⟨⟨d, k⟩, hwalk, hlast⟩ := Except.bind_eq_ok.1 hw
  refine ⟨d, by rw [if_neg hne, hwalk]; rfl, ?_⟩
  cases hd : w.fs.isDir d with
  | true => rfl
  | false =>
    rw [FS.walk_continues_notDir hd hcont] at hlast
    cases hlast

/-- Making the parent of names below the root, or that of the root itself, which is there. -/
theorem keeps_createDirAll_parent (hroot : EmptyRoot w₀ root R) {ns : List String} {p : Path}
    (hp : (root ++ Path.ofNames ns).parent = some p) : Act.Keeps (Confined w₀ R) (createDirAll p) := by
  rcases List.eq_nil_or_concat' ns with rfl | ⟨ns, n, rfl⟩
  · rw [Path.ofNames, List.map_nil, List.append_nil] at hp
    by_cases hne : p = []
    · rw [hne, createDirAll_nil]
      exact Act.keeps_pure ()
    · exact keeps_createDirAll_isDir fun w h hsame => parent_isDir hp hne (hroot.same h.cwd hsame).1
  · rw [Path.ofNames_append, ← List.append_assoc] at hp
    obtain rfl := Option.some.inj ((Path.parent_snoc_normal _ n).symm.trans hp)
    exact keeps_createDirAll hroot ns

end Posix
