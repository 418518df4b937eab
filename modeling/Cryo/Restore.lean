import Cryo.Entries
import Cryo.Representation
import Cryo.Scan

/-!
# Restoring a tree

A tree that was archived can be extracted when the reader accepts the targets of its links. The scan finds no path
twice, and nothing below a path that is not a directory (`beside_of_scan`), so the entries stand beside each other and
nothing else stops the extraction. A link is accepted by its text alone, from the place where it will stand, while a
compression takes any.

* `restorable_iff`: a tree is restored exactly when the text of every link leads below the output root.
* `absolute_link_stops`: a link out of the tree stops the extraction of what comes after it.
-/

namespace Cryo

open Posix World Chunk

variable {K : Crates}

/-! ## Scanned trees -/

/-- What `lstat` sees when the files are read is what the scan saw. -/
def Os.Agrees (os : Os) (dirs : Dirs) : Prop :=
  ∀ {p k m}, Listed dirs p k → os.symlinkMetadata p = .ok m → m.kind = k

/-- What a source is and where it stands. -/
def Source.place (src : Source) : FileType × List String := (src.metadata.ftype, src.path.names)

theorem Source.places : ∀ (pos : Nat) (srcs : List Source),
    (entries pos srcs).map FileEntry.place = srcs.map Source.place
  | _, [] => rfl
  | pos, src :: srcs => by
    rw [entries, List.map_cons, List.map_cons, places _ srcs]
    rfl

/-- It is a list of names. -/
def Named (p : Path) : Prop := ∃ ns, ns ≠ [] ∧ p = Path.ofNames ns

section

variable {os : Os} {dirs : Dirs} {root p q : Path} {bs : Nat} {files : List Path} {src src' : Source}

/-- A source that a scan found has a name of its own below directories. -/
theorem named_of_scan (hfinds : Finds dirs root files) (hp : p ∈ files) (h : observe os root bs p = .ok src) :
    ∃ ns n, src.path = Path.ofNames (ns ++ [n]) ∧ FoundAlong dirs root files ns := by
  obtain ⟨ns, n, hpath, halong⟩ := (retrieveAllFiles_found hfinds).2 p hp
  exact ⟨ns, n, List.append_cancel_left ((observe_path h).symm.trans hpath), halong⟩

/-- **Only directories stand above others.** -/
theorem dir_of_scan (hagree : os.Agrees dirs) (hfinds : Finds dirs root files) (hp : p ∈ files) (hq : q ∈ files)
    (hne : p ≠ q) (h : observe os root bs p = .ok src) (h' : observe os root bs q = .ok src')
    (hpre : src.path.names <+: src'.path.names) : src.metadata.ftype = .dir := by
  obtain ⟨ns, n, hname, _⟩ := named_of_scan hfinds hp h
  obtain ⟨ns', n', hname', halong⟩ := named_of_scan hfinds hq h'
  rw [hname, hname', Path.names_ofNames, Path.names_ofNames] at hpre
  rcases List.prefix_concat_iff.1 hpre with heq | hpre
  · refine absurd ?_ hne
    rw [observe_path h, observe_path h', hname, hname', heq]
  · have hlisted := (halong (ns ++ [n]) hpre (by simp)).2
    rw [← hname, ← observe_path h] at hlisted
    have hkind := hagree hlisted (observe_ok h).1
    unfold Metadata.ftype
    rw [hkind]

/-- **The sources of a scan stand beside each other.** -/
theorem beside_of_scan (hagree : os.Agrees dirs) (hfinds : Finds dirs root files) {srcs : List Source}
    (hobs : List.Forall₂ (fun p src => observe os root bs p = .ok src) files srcs) :
    (srcs.map Source.place).Pairwise Beside := by
  refine List.pairwise_map.2 (Except.pairwise_of_mapM (Except.mapM_eq_ok.2 hobs) (retrieveAllFiles_found hfinds).1 ?_)
  intro p hp q hq hne src src' h h'
  exact ⟨fun hdir hpre => hdir (dir_of_scan hagree hfinds hp hq hne h h' hpre),
    fun hdir hpre => hdir (dir_of_scan hagree hfinds hq hp hne.symm h' h hpre)⟩

/-- The source of a path is among the entries. -/
theorem exists_entry (pos : Nat) {srcs : List Source}
    (hobs : List.Forall₂ (fun p src => observe os root bs p = .ok src) files srcs)
    (hp : p ∈ files) : ∃ src off, observe os root bs p = .ok src ∧ src.entry off ∈ Source.entries pos srcs := by
  obtain ⟨i, hi, rfl⟩ := List.mem_iff_getElem.1 hp
  have hlt : i < srcs.length := hobs.length_eq ▸ hi
  obtain ⟨a, _, _, he⟩ := Source.locate pos (List.getElem?_eq_getElem hlt)
  exact ⟨srcs[i], _, (List.forall₂_iff_get.1 hobs).2 i hi hlt, List.mem_of_getElem? he⟩

/-- What a scan finds is named. -/
theorem named_of_found (hfinds : Finds dirs root files) (hp : p ∈ files) (h : observe os root bs p = .ok src) :
    Named src.path := by
  obtain ⟨ns, n, hname, _⟩ := named_of_scan hfinds hp h
  exact ⟨ns ++ [n], by simp, hname⟩

/-- The text of every link of a tree leads below `R`, when the tree stands there. -/
def Os.LeadInside (os : Os) (root : Path) (files : List Path) (R : Loc) : Prop :=
  ∀ ns m t, root ++ Path.ofNames ns ∈ files → os.symlinkMetadata (root ++ Path.ofNames ns) = .ok m →
    m.ftype = .symlink → os.readLink (root ++ Path.ofNames ns) = .ok t →
    t ≠ [] ∧ LeadsInside R (R ++ ns.dropLast) t

/-- The times of what is archived are not negative. -/
def Os.Timed (os : Os) : Prop := ∀ p m, os.symlinkMetadata p = .ok m → 0 ≤ m.mtime ∧ m.mtime < 2 ^ 63

/-- **An entry that was observed is good** when the links lead inside and it can be decoded. -/
theorem good_of_observed {r : ArchiveReader} {w₀ : World} {R : Loc} {off : Nat} (htime : os.Timed)
    (hlinks : os.LeadInside root files R) (hp : p ∈ files) (h : observe os root bs p = .ok src)
    (hnamed : Named src.path) (hsize : (src.entry off).size ≤ r.limits.effMaxFile)
    (hrange : off + (src.entry off).size < 2 ^ 64) (hdecode : ∃ d, r.decodeEntry K (src.entry off) = .ok d)
    (hbuffer : r.header.blockSize < 2 ^ 63) : r.Good K w₀ R (src.entry off) := by
  obtain ⟨hm, _, hcarries⟩ := observe_ok h
  obtain ⟨ns, hne, hname⟩ := hnamed
  have hpath := observe_path h
  exact {
    safe := by rw [Source.entry_path, hname]; exact isSafePath_ofNames _
    size := hsize
    range := hrange
    named := fun hnil => by
      rw [Source.entry_path, hname, Path.names_ofNames] at hnil
      exact absurd hnil hne
    link := fun hlink => by
      have hlink : src.metadata.ftype = .symlink := hlink
      unfold Source.Carries at hcarries
      rw [hlink] at hcarries
      obtain ⟨⟨t, ht, htarget⟩, _⟩ := hcarries
      rw [hpath, hname] at hp hm ht
      obtain ⟨hne, hinside⟩ := hlinks _ _ t hp hm hlink ht
      rw [Source.entry_path, hname, Path.names_ofNames]
      exact ⟨t, htarget, hne, hinside⟩
    file := fun _ => by
      obtain ⟨hnonneg, hlt⟩ := htime p _ hm
      have hasU64 := asU64_of_nonneg (Int.toNat_of_nonneg hnonneg).symm (by omega)
      refine ⟨hdecode, hbuffer, ?_⟩
      show asU64 src.metadata.mtime < 2 ^ 63
      omega }

end

/-! ## Restoring -/

/-- **When a tree is restored**: the archive of a tree is extracted into an empty directory, under limits that allow
it, exactly when the text of every link leads below the output root. -/
theorem restorable_iff (hK : K.Lawful) {setup : Setup} {env : Env} {args : CompressArgs} {arch : ArchiveWriter}
    {dirs : Dirs} {files : List Path} (hrec : args.recursive = true) (hbs : args.bs + 16 < 2 ^ 32)
    (hscan : setup.retrieveAllFiles args.pathToCompress = .ok files) (hfinds : Finds dirs args.pathToCompress files)
    (hagree : env.os.Agrees dirs)
    (htime : env.os.Timed) (hrun : initializeCompression K setup env args = .ok arch) {limits : Limits}
    (hs : Sizes K limits arch)
    (hfits : ∀ e ∈ arch.index.files, e.size ≤ limits.effMaxFile ∧ e.streamOffset + e.size < 2 ^ 64)
    {prompts : Prompts} {confirm : Bool} (hkey : Cipher.new K prompts arch.header confirm = .ok arch.cipher)
    (p out : Path) : ∃ r, ArchiveReader.new K arch.writer.bytes p out limits prompts confirm = .ok r ∧
      ∀ w R, World.Vacant w out R →
        ((∃ w', r.handleFiles K w = (.ok (), w')) ↔ env.os.LeadInside args.pathToCompress files R) := by
  have hblock := initializeCompression_blockSize hrun
  have hsmall : arch.header.blockSize + 16 < 2 ^ 32 := by rw [hblock]; exact hbs
  obtain ⟨im, root, queue, srcs, hqueue, hobs, hf, _, hfiles, hengine⟩ :=
    initializeCompression_finished hK hrun (.inl hsmall)
  obtain ⟨rfl, rfl⟩ : args.pathToCompress = root ∧ files = queue := by
    unfold queueFiles at hqueue
    rw [if_pos hrec, hscan, Except.ok_bind] at hqueue
    exact Prod.mk.inj (Except.ok.inj hqueue)
  refine ⟨arch.reader p out limits, hf.new_reader hK hs hkey p out, fun w R hvacant => ?_⟩
  have hbeside : (arch.index.files.map FileEntry.place).Pairwise Beside := by
    rw [hfiles, Source.places]
    exact beside_of_scan hagree hfinds hobs
  obtain ⟨w₀, hstart⟩ := ArchiveReader.exists_started hvacant
  have hwp := ArchiveReader.wp_handleFiles_iff (K := K) (r := arch.reader p out limits) hstart hbeside
  have hentry : ∀ e ∈ arch.index.files, ∃ q ∈ files, ∃ src off, e = src.entry off ∧
      observe env.os args.pathToCompress args.bs q = .ok src := fun e he => by
    rw [hfiles] at he
    obtain ⟨src, hsrc, off, rfl⟩ := Source.mem_entries he
    obtain ⟨q, hq, h⟩ := Except.mem_of_mapM_ok (Except.mapM_eq_ok.2 hobs) hsrc
    exact ⟨q, hq, src, off, rfl, h⟩
  constructor
  · rintro ⟨w', hok⟩ ns m t hmem hm hlink ht
    obtain ⟨hgood, _⟩ := (Act.of_wp hwp).1 () hok
    obtain ⟨src, off, hsrc, he⟩ := exists_entry 0 hobs hmem
    rw [← hfiles] at he
    obtain ⟨hm', _, hcarries⟩ := observe_ok hsrc
    obtain rfl : m = src.metadata := Except.ok.inj (hm.symm.trans hm')
    unfold Source.Carries at hcarries
    rw [hlink] at hcarries
    obtain ⟨⟨t', ht', htarget⟩, _⟩ := hcarries
    obtain rfl : t = t' := Except.ok.inj (ht.symm.trans ht')
    obtain ⟨t', ht', hne, hinside⟩ := (hgood _ he).link hlink
    obtain rfl : t = t' := Option.some.inj (htarget.symm.trans ht')
    have hpath : src.path = Path.ofNames ns := List.append_cancel_left (observe_path hsrc).symm
    rw [Source.entry_path, hpath, Path.names_ofNames] at hinside
    exact ⟨hne, hinside⟩
  · intro hlinks
    have hgood : ∀ e ∈ arch.index.files, (arch.reader p out limits).Good K w₀ R e := fun e he => by
      obtain ⟨q, hq, src, off, rfl, hsrc⟩ := hentry e he
      have hbuffer : arch.header.blockSize < 2 ^ 63 := by omega
      exact good_of_observed htime hlinks hq hsrc (named_of_found hfinds hq hsrc) (hfits _ he).1 (hfits _ he).2
        ⟨_, hf.decodeEntry hsmall hs.offset hengine p out limits _⟩ hbuffer
    obtain ⟨_, w', hok, _⟩ := Act.exists_ok (Act.wp_mono hwp (fun _ _ h => h) fun _ _ hbad => hbad hgood)
    exact ⟨w', hok⟩

/-! ## A directory with a link -/

/-- The directory `src` with the link `l` and the file `z` of three bytes. -/
def linkDirs : Dirs where
  readDir p := if p = [.normal "src"] then .ok [⟨"l", .ok .symlink⟩, ⟨"z", .ok .file⟩] else .error .noent
  distinct {dir names} h := by
    split at h
    · cases h
      decide
    · cases h

def linkFiles : List Path := [[.normal "src", .normal "l"], [.normal "src", .normal "z"]]

def linkOs (target : Path) : Os where
  symlinkMetadata p :=
    if p = [.normal "src", .normal "l"] then .ok ⟨.symlink, 0, 0, 0o777⟩
    else if p = [.normal "src", .normal "z"] then .ok ⟨.file, 3, 0, 0o644⟩ else .error .noent
  readLink _ := .ok target
  openFile _ := .ok (.ofContent [1, 2, 3])

theorem linkOs_agrees (target : Path) : (linkOs target).Agrees linkDirs := by
  rintro p k m ⟨dir, names, entry, hread, hmem, hk, rfl⟩ hm
  unfold linkDirs at hread
  dsimp only at hread
  split at hread
  · rename_i hdir
    cases hread
    subst hdir
    rcases List.mem_cons.1 hmem with rfl | hmem
    · cases hk
      cases hm
      rfl
    · obtain rfl := List.mem_singleton.1 hmem
      cases hk
      cases hm
      rfl
  · cases hread

/-- The index of the directory, with blocks of two bytes. -/
def linkIndex (target : Path) : Index where
  files := [{ linkEntry "l" target with permissions := 0o777 }, plainFile "z" 0 3]
  block := indexOfA.block
  totalStreamSize := 3

/-- A link to the file beside it. -/
theorem restorable_iff_sibling :
    let K := Crates.tabled [Header.stored 2] [linkIndex [.normal "z"]]
    ∃ (arch : ArchiveWriter) (r : ArchiveReader) (w' : World),
      ArchiveReader.new K arch.writer.bytes [] [.rootDir, .normal "out"] Limits.default ⟨none, none⟩ false = .ok r ∧
      r.handleFiles K (World.ofDirs [[], ["out"]]) = (.ok (), w') := by
  intro K
  let os := linkOs [.normal "z"]
  let footer : Footer := ⟨7, 0, 0, false, Vector.replicate 12 0⟩
  obtain ⟨arch, hrun, hshown⟩ := Except.exists_of_toOption_map (f := ArchiveWriter.shown)
    (x := initializeCompression K (Setup.plain linkFiles) (Env.plain os) (CompressArgs.plain 2))
    (b := ([0, 0, 0, 0] ++ [1, 2, 3] ++ List.replicate 0 0 ++ footer.serialize, linkIndex [.normal "z"], 7,
      Header.stored 2, .none)) (by decide +kernel)
  have hs : Sizes K Limits.default arch :=
    sizes_of_shown hshown (by decide +kernel) (by decide +kernel) (by decide) (by decide)
  unfold ArchiveWriter.shown at hshown
  simp only [Prod.mk.injEq] at hshown
  obtain ⟨_, hindex, _, hheader, hcipher⟩ := hshown
  have htime : os.Timed := by
    intro p m hm
    unfold os linkOs at hm
    dsimp only at hm
    split at hm
    · cases hm
      decide
    · split at hm
      · cases hm
        decide
      · cases hm
  have hkey : Cipher.new K ⟨none, none⟩ arch.header false = .ok arch.cipher := by rw [hheader, hcipher]; rfl
  obtain ⟨r, hnew, hiff⟩ := restorable_iff (Crates.tabled_lawful [Header.stored 2] [linkIndex [.normal "z"]]) rfl
    (by decide) rfl ⟨2, by decide +kernel⟩ (linkOs_agrees [.normal "z"]) htime hrun hs (by rw [hindex]; decide) hkey []
    [.rootDir, .normal "out"]
  have hroot : (World.ofDirs [[], ["out"]]).Vacant [.rootDir, .normal "out"] ["out"] :=
    ⟨fun _ => rfl, by decide +kernel, .inl (by decide), fun ns hns => by simp [World.ofDirs, hns]⟩
  have hlinks : os.LeadInside [.normal "src"] linkFiles ["out"] := by
    intro ns m t hmem _ _ ht
    cases ht
    refine ⟨by simp, ?_⟩
    have hnames : ∀ p ∈ linkFiles, p = [.normal "src"] ++ Path.ofNames ns → ns = ["l"] ∨ ns = ["z"] := by
      intro p hp heq
      have heq : p.stripPrefix [.normal "src"] = some (Path.ofNames ns) := by rw [heq, Path.stripPrefix_append]
      rcases List.mem_cons.1 hp with rfl | hp
      · left
        rw [← Path.names_ofNames ns, ← Option.some.inj heq]
        rfl
      · obtain rfl := List.mem_singleton.1 hp
        right
        rw [← Path.names_ofNames ns, ← Option.some.inj heq]
        rfl
    rcases hnames _ hmem rfl with rfl | rfl <;> decide
  obtain ⟨w', hok⟩ := (hiff _ _ hroot).2 hlinks
  exact ⟨arch, r, w', hnew, hok⟩

/-- **A link to `/etc/passwd`** is archived, and stops the extraction before the file that comes after it. -/
theorem absolute_link_stops :
    let target : Path := [.rootDir, .normal "etc", .normal "passwd"]
    let K := Crates.tabled [Header.stored 2] [linkIndex target]
    Finds linkDirs [.normal "src"] linkFiles ∧ (linkOs target).Agrees linkDirs ∧
    ∃ (arch : ArchiveWriter) (r : ArchiveReader),
      initializeCompression K (Setup.plain linkFiles) (Env.plain (linkOs target)) (CompressArgs.plain 2) = .ok arch ∧
      ArchiveReader.new K arch.writer.bytes [] [.rootDir, .normal "out"] Limits.default ⟨none, none⟩ false = .ok r ∧
      (r.handleFiles K (World.ofDirs [[], ["out"]])).1 = .error (.err (.unsafePath target)) ∧
      (r.handleFiles K (World.ofDirs [[], ["out"]])).2.fs ["out", "z"] = none := by
  intro target K
  refine ⟨⟨2, by decide +kernel⟩, linkOs_agrees target, ?_⟩
  obtain ⟨arch, hrun, hshown⟩ := Except.exists_of_toOption_map
    (f := fun arch => (ArchiveReader.new K arch.writer.bytes [] [.rootDir, .normal "out"] Limits.default ⟨none, none⟩
      false).toOption.map fun r => ((r.handleFiles K (World.ofDirs [[], ["out"]])).1,
        (r.handleFiles K (World.ofDirs [[], ["out"]])).2.fs ["out", "z"]))
    (x := initializeCompression K (Setup.plain linkFiles) (Env.plain (linkOs target)) (CompressArgs.plain 2))
    (b := some (.error (.err (.unsafePath target)), none)) (by decide +kernel)
  obtain ⟨r, hnew, hr⟩ := Except.exists_of_toOption_map hshown
  obtain ⟨herr, hnone⟩ := Prod.mk.inj hr
  exact ⟨arch, r, hrun, hnew, herr, hnone⟩

end Cryo
