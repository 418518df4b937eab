import Cryo.Lib.Bytes
import Cryo.Lib.FileSystem
import Cryo.Lib.Interleave

/-!
# Names and files

A `Disk` keeps apart what stands for a name and what a file holds. A file has a number, any number of names, and stays
while it is open when its last name is gone; numbers are not used again. A name can also be a directory, or a link to
another name.

`create` opens for writing and empties, `rename` puts a name over another one, `remove` takes a name away. `Within L I`
says that two disks differ at the names `L` and the files `I` only. For components that share a disk, `look` is what it
holds at a name or a number.
-/

namespace Posix

/-- What stands for a name. -/
inductive Entry where
  | file (ino : Nat)
  | dir
  | link (target : Loc)
  deriving DecidableEq

def Entry.isFile : Entry → Bool
  | .file _ => true
  | _ => false

@[ext] structure Disk where
  entry : Loc → Option Entry
  content : Nat → Option Bytes
  /-- Names stand for files that exist. -/
  held : ∀ {l i}, entry l = some (.file i) → content i ≠ none

namespace Disk

/-! ## Opening -/

/-- The name at the end of at most `links` links. -/
def follow (d : Disk) : Nat → Loc → Option Loc
  | 0, l =>
    match d.entry l with
    | some (.link _) => none
    | _ => some l
  | links + 1, l =>
    match d.entry l with
    | some (.link t) => d.follow links t
    | _ => some l

/-- The file that a name leads to. -/
def opens (d : Disk) (l : Loc) : Option Nat :=
  match (d.follow FS.maxLinks l).bind d.entry with
  | some (.file i) => some i
  | _ => none

/-- What is read under a name. -/
def read (d : Disk) (l : Loc) : Option Bytes := (d.opens l).bind d.content

/-- The file holds `b`. -/
def write (d : Disk) (i : Nat) (b : Bytes) : Disk where
  entry := d.entry
  content := Function.update d.content i (some b)
  held {l j} h := by
    by_cases hj : j = i
    · rw [hj, Function.update_self]
      simp
    · rw [Function.update_of_ne hj]
      exact d.held h

/-- The name stands for the new file `i`, which is empty. -/
def make (d : Disk) (l : Loc) (i : Nat) : Disk where
  entry := Function.update d.entry l (some (.file i))
  content := Function.update d.content i (some [])
  held {l' j} h := by
    by_cases hj : j = i
    · rw [hj, Function.update_self]
      simp
    · rw [Function.update_of_ne hj]
      by_cases hl : l' = l
      · rw [hl, Function.update_self] at h
        cases h
        exact absurd rfl hj
      · rw [Function.update_of_ne hl] at h
        exact d.held h

/-- `open` for writing, with `O_CREAT` and `O_TRUNC`: the file behind the name is emptied; where there is none, it is
made, with the number `fresh`. -/
def create (d : Disk) (fresh : Nat) (l : Loc) : Option (Nat × Disk) :=
  match d.follow FS.maxLinks l with
  | none => none
  | some m =>
    match d.entry m with
    | some (.file i) => some (i, d.write i [])
    | some _ => none
    | none => if d.content fresh = none then some (fresh, d.make m fresh) else none

/-- `open` with `O_CREAT` and `O_EXCL`: a file is made, with the number `fresh`, where nothing stands for the name. -/
def createNew (d : Disk) (fresh : Nat) (l : Loc) : Option Disk :=
  if d.entry l = none ∧ d.content fresh = none then some (d.make l fresh) else none

/-! ## Names -/

/-- The name is gone. -/
def unlink (d : Disk) (l : Loc) : Disk where
  entry := Function.update d.entry l none
  content := d.content
  held {l' j} h := by
    by_cases hl : l' = l
    · rw [hl, Function.update_self] at h
      cases h
    · rw [Function.update_of_ne hl] at h
      exact d.held h

/-- `unlink`, of what is no directory. -/
def remove (d : Disk) (l : Loc) : Disk :=
  match d.entry l with
  | some (.file _) | some (.link _) => d.unlink l
  | _ => d

/-- What stood at `l` stands at `l'`. -/
def move (d : Disk) (l l' : Loc) : Disk where
  entry := Function.update (Function.update d.entry l' (d.entry l)) l none
  content := d.content
  held {m j} h := by
    by_cases hm : m = l
    · rw [hm, Function.update_self] at h
      cases h
    · rw [Function.update_of_ne hm] at h
      by_cases hm' : m = l'
      · rw [hm', Function.update_self] at h
        exact d.held h
      · rw [Function.update_of_ne hm'] at h
        exact d.held h

/-- `rename`, of what is no directory. Two names of one file stay. -/
def rename (d : Disk) (l l' : Loc) : Option Disk :=
  match d.entry l with
  | none | some .dir => none
  | some e =>
    if d.entry l' = some .dir then none
    else if l = l' ∨ (e.isFile ∧ d.entry l' = some e) then some d
    else some (d.move l l')

/-! ## What the operations do -/

section

variable {d e : Disk} {l l' t : Loc} {i j : Nat} {b : Bytes}

@[simp] theorem write_entry (d : Disk) (i : Nat) (b : Bytes) : (d.write i b).entry = d.entry := rfl

@[simp] theorem write_self (d : Disk) (i : Nat) (b : Bytes) : (d.write i b).content i = some b :=
  Function.update_self ..

theorem write_other (h : j ≠ i) : (d.write i b).content j = d.content j := Function.update_of_ne h ..

@[simp] theorem make_self (d : Disk) (l : Loc) (i : Nat) : (d.make l i).entry l = some (.file i) :=
  Function.update_self ..

theorem make_entry (h : l' ≠ l) : (d.make l i).entry l' = d.entry l' := Function.update_of_ne h ..

@[simp] theorem make_content (d : Disk) (l : Loc) (i : Nat) : (d.make l i).content i = some [] :=
  Function.update_self ..

theorem make_other (h : j ≠ i) : (d.make l i).content j = d.content j := Function.update_of_ne h ..

@[simp] theorem unlink_self (d : Disk) (l : Loc) : (d.unlink l).entry l = none := Function.update_self ..

theorem unlink_entry (h : l' ≠ l) : (d.unlink l).entry l' = d.entry l' := Function.update_of_ne h ..

@[simp] theorem unlink_content (d : Disk) (l : Loc) : (d.unlink l).content = d.content := rfl

theorem remove_file (h : d.entry l = some (.file i)) : d.remove l = d.unlink l := by
  unfold remove
  rw [h]

@[simp] theorem move_self (d : Disk) (l l' : Loc) : (d.move l l').entry l = none := Function.update_self ..

theorem move_target (h : l' ≠ l) : (d.move l l').entry l' = d.entry l :=
  (Function.update_of_ne h ..).trans (Function.update_self ..)

theorem move_entry (h : t ≠ l) (h' : t ≠ l') : (d.move l l').entry t = d.entry t :=
  (Function.update_of_ne h ..).trans (Function.update_of_ne h' ..)

@[simp] theorem move_content (d : Disk) (l l' : Loc) : (d.move l l').content = d.content := rfl

/-- A file put over something else that is no directory. -/
theorem rename_file (h : d.entry l = some (.file i)) (hne : l ≠ l') (hdir : d.entry l' ≠ some .dir)
    (hother : d.entry l' ≠ some (.file i)) : d.rename l l' = some (d.move l l') := by
  unfold rename
  rw [h]
  simp only
  rw [if_neg hdir, if_neg]
  rintro (heq | ⟨_, heq⟩)
  · exact hne heq
  · exact hother heq

/-! ## Links -/

/-- What is no link leads to itself. -/
theorem follow_of_ne_link (h : ∀ t, d.entry l ≠ some (.link t)) (links : Nat) : d.follow links l = some l := by
  cases links with
  | zero =>
    unfold follow
    split
    · rename_i hlink
      exact absurd hlink (h _)
    · rfl
  | succ links =>
    unfold follow
    split
    · rename_i hlink
      exact absurd hlink (h _)
    · rfl

theorem opens_of_ne_link (h : ∀ t, d.entry l ≠ some (.link t)) : d.opens l = match d.entry l with
    | some (.file i) => some i
    | _ => none := by
  unfold opens
  rw [follow_of_ne_link h]
  rfl

theorem opens_file (h : d.entry l = some (.file i)) : d.opens l = some i := by
  rw [opens_of_ne_link (by simp [h]), h]

/-- The file that is opened stands at the end of the links. -/
theorem opens_eq_some : d.opens l = some i ↔ ∃ m, d.follow FS.maxLinks l = some m ∧ d.entry m = some (.file i) := by
  unfold opens
  constructor
  · intro h
    split at h
    · rename_i hentry
      cases h
      exact Option.bind_eq_some_iff.1 hentry
    · cases h
  · rintro ⟨m, hfollow, hm⟩
    rw [hfollow, Option.bind_some, hm]

/-- A file that can be opened exists. -/
theorem content_of_opens (h : d.opens l = some i) : d.content i ≠ none := by
  obtain ⟨m, _, hm⟩ := opens_eq_some.1 h
  exact d.held hm

/-- **A name that is no link can change**: what does not lead there leads where it did. -/
theorem follow_congr (hentry : ∀ l ≠ t, e.entry l = d.entry l) (hlink : ∀ t', d.entry t ≠ some (.link t')) {m : Loc}
    (hm : m ≠ t) : ∀ {links : Nat} {l : Loc}, d.follow links l = some m → e.follow links l = some m := by
  intro links
  induction links with
  | zero =>
    intro l h
    by_cases hl : l = t
    · rw [hl, follow_of_ne_link hlink] at h
      exact absurd (Option.some.inj h).symm hm
    · unfold follow at h ⊢
      rw [hentry l hl]
      exact h
  | succ links ih =>
    intro l h
    by_cases hl : l = t
    · rw [hl, follow_of_ne_link hlink] at h
      exact absurd (Option.some.inj h).symm hm
    · unfold follow at h ⊢
      rw [hentry l hl]
      split
      · rename_i hto
        rw [hto] at h
        exact ih h
      · rename_i hto
        split at h
        · rename_i hto'
          exact absurd hto' (hto _)
        · exact h

/-- A file that does not stand at the name is opened as before. -/
theorem opens_congr (hentry : ∀ l ≠ t, e.entry l = d.entry l) (hlink : ∀ t', d.entry t ≠ some (.link t'))
    (hi : d.entry t ≠ some (.file i)) (h : d.opens l = some i) : e.opens l = some i := by
  obtain ⟨m, hfollow, hm⟩ := opens_eq_some.1 h
  have hmt : m ≠ t := by
    rintro rfl
    exact hi hm
  exact opens_eq_some.2 ⟨m, follow_congr hentry hlink hmt hfollow, (hentry m hmt).trans hm⟩

/-- The names that resolution looks at. -/
def chain (d : Disk) : Nat → Loc → List Loc
  | 0, l => [l]
  | links + 1, l =>
    match d.entry l with
    | some (.link t) => l :: d.chain links t
    | _ => [l]

theorem mem_chain (d : Disk) (links : Nat) (l : Loc) : l ∈ d.chain links l := by
  cases links with
  | zero => exact List.mem_singleton.2 rfl
  | succ links =>
    unfold chain
    split
    · exact List.mem_cons_self
    · exact List.mem_singleton.2 rfl

/-- **Resolution depends on the names it looks at.** -/
theorem follow_of_chain : ∀ {links : Nat} {l : Loc}, (∀ m ∈ d.chain links l, e.entry m = d.entry m) →
    e.follow links l = d.follow links l := by
  intro links
  induction links with
  | zero =>
    intro l h
    unfold follow
    rw [h l (mem_chain d 0 l)]
  | succ links ih =>
    intro l h
    unfold follow
    rw [h l (mem_chain d _ l)]
    split
    · rename_i t ht
      refine ih fun m hm => h m ?_
      unfold chain
      rw [ht]
      exact List.mem_cons_of_mem l hm
    · rfl

/-- The name at the end is one of them, and the others are links. -/
theorem chain_of_follow : ∀ {links : Nat} {l m : Loc}, d.follow links l = some m → m ∈ d.chain links l ∧
    ∀ x ∈ d.chain links l, x = m ∨ ∃ t, d.entry x = some (.link t) := by
  intro links
  induction links with
  | zero =>
    intro l m h
    have hm : l = m := by
      unfold follow at h
      split at h
      · cases h
      · exact Option.some.inj h
    subst hm
    exact ⟨mem_chain d 0 l, fun x hx => .inl (List.mem_singleton.1 hx)⟩
  | succ links ih =>
    intro l m h
    unfold follow at h
    unfold chain
    split at h
    · rename_i t ht
      obtain ⟨hmem, hall⟩ := ih h
      refine ⟨List.mem_cons_of_mem l hmem, fun x hx => ?_⟩
      rcases List.mem_cons.1 hx with rfl | hx
      · exact .inr ⟨t, ht⟩
      · exact hall x hx
    · rename_i hne
      obtain rfl := Option.some.inj h
      exact ⟨List.mem_singleton.2 rfl, fun x hx => .inl (List.mem_singleton.1 hx)⟩

/-- A file is opened over names that are all there. -/
theorem entry_of_chain (h : d.opens l = some i) {m : Loc} (hm : m ∈ d.chain FS.maxLinks l) : d.entry m ≠ none := by
  obtain ⟨last, hfollow, hlast⟩ := opens_eq_some.1 h
  rcases (chain_of_follow hfollow).2 m hm with rfl | ⟨t, ht⟩
  · rw [hlast]
    simp
  · rw [ht]
    simp

theorem opens_of_chain (h : ∀ m ∈ d.chain FS.maxLinks l, e.entry m = d.entry m) : e.opens l = d.opens l := by
  have hfollow := follow_of_chain h
  unfold opens
  rw [hfollow]
  cases hlast : d.follow FS.maxLinks l with
  | none => rfl
  | some m => rw [Option.bind_some, Option.bind_some, h m (chain_of_follow hlast).1]

/-- What leads to a name that is made leads there afterwards. -/
theorem follow_make {m : Loc} : ∀ {links : Nat} {l : Loc}, d.follow links l = some m →
    (d.make m i).follow links l = some m := by
  have hmade : ∀ links, (d.make m i).follow links m = some m := fun links => follow_of_ne_link (by simp) links
  intro links
  induction links with
  | zero =>
    intro l h
    by_cases hl : l = m
    · rw [hl]
      exact hmade 0
    · unfold follow at h ⊢
      rw [make_entry hl]
      exact h
  | succ links ih =>
    intro l h
    by_cases hl : l = m
    · rw [hl]
      exact hmade _
    · unfold follow at h ⊢
      rw [make_entry hl]
      split
      · rename_i ht
        rw [ht] at h
        exact ih h
      · rename_i hne
        split at h
        · rename_i ht
          exact absurd ht (hne _)
        · exact h

/-- The names of the file that is written when `l` is opened for writing: those of the file that it leads to, or the one
under which the file is made. -/
def names (d : Disk) (l : Loc) : Set Loc :=
  {x | (∃ i, d.opens l = some i ∧ d.entry x = some (.file i)) ∨ d.follow FS.maxLinks l = some x ∧ d.entry x = none}

/-- **Opening for writing** gives an empty file, with these names. Other files stay, and so do other names. -/
structure Created (d : Disk) (l : Loc) (o : Nat) (d' : Disk) : Prop where
  opens : d'.opens l = some o
  empty : d'.content o = some []
  names : ∀ x, d'.entry x = some (.file o) ↔ x ∈ d.names l
  other : ∀ j ≠ o, d'.content j = d.content j
  entry : ∀ x, d'.entry x = d.entry x ∨ d.entry x = none ∧ d'.entry x = some (.file o)

theorem create_ok {fresh o : Nat} {d' : Disk} (h : d.create fresh l = some (o, d')) : Created d l o d' := by
  unfold create at h
  split at h
  · cases h
  · rename_i m hfollow
    split at h
    · rename_i j hj
      cases h
      have hopens : d.opens l = some o := opens_eq_some.2 ⟨m, hfollow, hj⟩
      refine ⟨?_, write_self .., fun x => ?_, fun k hk => write_other hk, fun x => .inl rfl⟩
      · exact (opens_of_chain fun _ _ => rfl).trans hopens
      · constructor
        · exact fun hx => .inl ⟨o, hopens, hx⟩
        · rintro (⟨i, hi, hx⟩ | ⟨hx, hnone⟩)
          · cases hopens.symm.trans hi
            exact hx
          · cases hfollow.symm.trans hx
            rw [hj] at hnone
            cases hnone
    · cases h
    · rename_i hnone
      split at h
      · rename_i hfresh
        cases h
        have hmade : (d.make m fresh).entry m = some (.file fresh) := make_self ..
        refine ⟨opens_eq_some.2 ⟨m, follow_make hfollow, hmade⟩, make_content .., fun x => ?_,
          fun k hk => make_other hk, fun x => (eq_or_ne x m).symm.imp make_entry fun hx => ?_⟩
        swap
        · rw [hx]
          exact ⟨hnone, hmade⟩
        by_cases hx : x = m
        · subst hx
          exact ⟨fun _ => .inr ⟨hfollow, hnone⟩, fun _ => hmade⟩
        · rw [make_entry hx]
          constructor
          · exact fun hfile => absurd hfresh (d.held hfile)
          · rintro (⟨i, hi, _⟩ | ⟨hfollow', _⟩)
            · obtain ⟨m', hm', hfile⟩ := opens_eq_some.1 hi
              cases hfollow.symm.trans hm'
              rw [hnone] at hfile
              cases hfile
            · exact absurd (Option.some.inj (hfollow'.symm.trans hfollow)) hx
      · cases h

/-- A name that is there stays. -/
theorem Created.keeps {o : Nat} {d' : Disk} {x : Loc} (h : Created d l o d') (hx : d.entry x ≠ none) :
    d'.entry x = d.entry x := (h.entry x).resolve_right fun hnone => hx hnone.1

/-- Another name is what it was. -/
theorem Created.entry_of_notMem {o : Nat} {d' : Disk} {x : Loc} (h : Created d l o d') (hx : x ∉ d.names l) :
    d'.entry x = d.entry x := (h.entry x).resolve_right fun hnone => hx ((h.names x).1 hnone.2)

/-- What is opened depends on the names alone. -/
theorem opens_of_entry (h : e.entry = d.entry) (l : Loc) : e.opens l = d.opens l :=
  opens_of_chain fun _ _ => congrFun h _

/-- Opening for writing what is no link. -/
theorem create_of_ne_link (h : ∀ t, d.entry l ≠ some (.link t)) (fresh : Nat) : d.create fresh l =
    match d.entry l with
    | some (.file i) => some (i, d.write i [])
    | some _ => none
    | none => if d.content fresh = none then some (fresh, d.make l fresh) else none := by
  unfold create
  rw [follow_of_ne_link h]

end

/-! ## Differences -/

/-- `d'` differs from `d` at the names `L` and in the files `I` only. -/
structure Within (L : Set Loc) (I : Set Nat) (d d' : Disk) : Prop where
  entry : ∀ l ∉ L, d'.entry l = d.entry l
  content : ∀ i ∉ I, d'.content i = d.content i

section

variable {L : Set Loc} {I : Set Nat} {d d' d'' : Disk} {l l' : Loc} {i : Nat} {b : Bytes}

theorem Within.refl (L : Set Loc) (I : Set Nat) (d : Disk) : Within L I d d := ⟨fun _ _ => rfl, fun _ _ => rfl⟩

theorem Within.trans (h : Within L I d d') (h' : Within L I d' d'') : Within L I d d'' :=
  ⟨fun l hl => (h'.entry l hl).trans (h.entry l hl), fun i hi => (h'.content i hi).trans (h.content i hi)⟩

theorem Within.mono (h : Within L I d d') {L' : Set Loc} {I' : Set Nat} (hL : L ⊆ L') (hI : I ⊆ I') :
    Within L' I' d d' :=
  ⟨fun l hl => h.entry l fun hmem => hl (hL hmem), fun i hi => h.content i fun hmem => hi (hI hmem)⟩

theorem within_write (hi : i ∈ I) (d : Disk) (b : Bytes) : Within L I d (d.write i b) :=
  ⟨fun _ _ => rfl, fun _ hj => write_other fun heq => hj (heq ▸ hi)⟩

theorem within_make (hl : l ∈ L) (hi : i ∈ I) (d : Disk) : Within L I d (d.make l i) :=
  ⟨fun _ hm => make_entry fun heq => hm (heq ▸ hl), fun _ hj => make_other fun heq => hj (heq ▸ hi)⟩

theorem within_unlink (hl : l ∈ L) (d : Disk) : Within L I d (d.unlink l) :=
  ⟨fun _ hm => unlink_entry fun heq => hm (heq ▸ hl), fun _ _ => rfl⟩

theorem within_move (hl : l ∈ L) (hl' : l' ∈ L) (d : Disk) : Within L I d (d.move l l') :=
  ⟨fun _ hm => move_entry (fun heq => hm (heq ▸ hl)) (fun heq => hm (heq ▸ hl')), fun _ _ => rfl⟩

end

/-! ## Parts of a disk -/

/-- What the disk holds at a name or a number. -/
def look (d : Disk) : Loc ⊕ Nat → Option Entry ⊕ Option Bytes
  | .inl l => .inl (d.entry l)
  | .inr i => .inr (d.content i)

section

open Interleave

variable {d e : Disk} {F : Set (Loc ⊕ Nat)} {l : Loc} {i : Nat}

theorem agree_iff : Agree look F d e ↔
    (∀ l, .inl l ∈ F → d.entry l = e.entry l) ∧ ∀ i, .inr i ∈ F → d.content i = e.content i := by
  constructor
  · exact fun h => ⟨fun l hl => Sum.inl.inj (h _ hl), fun i hi => Sum.inr.inj (h _ hi)⟩
  · rintro ⟨hentry, hcontent⟩ (l | i) hk
    · exact congrArg Sum.inl (hentry l hk)
    · exact congrArg Sum.inr (hcontent i hk)

/-- What stays outside a difference. -/
theorem Within.look {L : Set Loc} {I : Set Nat} (h : Within L I d e) {k : Loc ⊕ Nat}
    (hk : k ∉ Sum.inl '' L ∪ Sum.inr '' I) : e.look k = d.look k := by
  rcases k with l | i
  · exact congrArg Sum.inl (h.entry l fun hl => hk (.inl ⟨l, hl, rfl⟩))
  · exact congrArg Sum.inr (h.content i fun hi => hk (.inr ⟨i, hi, rfl⟩))

end

/-- A disk with these files, numbered in their order. -/
def ofFiles (files : List (Loc × Bytes)) : Disk where
  entry l := (files.findIdx? fun f => f.1 = l).map .file
  content i := files[i]?.map Prod.snd
  held {l i} h := by
    obtain ⟨j, hj, heq⟩ := Option.map_eq_some_iff.1 h
    cases heq
    obtain ⟨hlt, _⟩ := List.findIdx?_eq_some_iff_getElem.1 hj
    simp [hlt]

end Disk
end Posix
