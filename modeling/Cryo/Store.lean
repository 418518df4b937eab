import Cryo.Session

/-!
# An archive is a map

What an archive is for: a map from paths to files, in which what was put first stays (`Store`, `Store.add`). The list of
its entries with what they decode to represents such a map (`Stores`): a compression puts what it sees into the empty
map, an append adds what it sees to the map of the archive, paths that are there being passed over
(`Stores.compress`, `Stores.append`).

* `store_refined`: over a compression and any calls of `append_file` on the disk, successful, failed or killed, what is
  read from the archive is the map with the additions of the calls that have returned `Ok`, in their order.
-/

namespace Cryo

open Posix Bytes Chunk

/-! ## The map -/

/-- What is kept of a file, directory or link. -/
structure Item where
  ftype : FileType
  permissions : Nat
  timestamp : Nat
  symlinkTarget : Option Path
  content : Bytes
  deriving DecidableEq

/-- What is kept, by its path. -/
abbrev Store := Path → Option Item

namespace Store

def empty : Store := fun _ => none

/-- What is seen at the first of the paths that has a name below the root is put under that name, unless it is taken. -/
def add (see : Path → Option Item) (root : Path) (paths : List Path) (s : Store) : Store :=
  fun name => (s name).or ((paths.find? fun p => p.stripPrefix root = some name).bind see)

end Store

def Source.item (src : Source) : Item where
  ftype := src.metadata.ftype
  permissions := src.metadata.mode
  timestamp := asU64 src.metadata.mtime
  symlinkTarget := src.target
  content := src.data

/-- What is seen at a path. -/
def seen (os : Os) (root : Path) (blockSize : Nat) (p : Path) : Option Item :=
  (observe os root blockSize p).toOption.map Source.item

/-- The root of an append and all the paths it is about, before those that are there are passed over. -/
def candidates (setup : AppendSetup) (fileToAppend : Path) : Result (Path × List Path) :=
  if setup.isDir fileToAppend then do
    let paths ← setup.retrieveAllFiles fileToAppend
    .ok (fileToAppend, paths)
  else .ok (fileToAppend.parent.getD fileToAppend, [fileToAppend])

theorem queueAppend_candidates {setup : AppendSetup} {files : List FileEntry} {path root : Path} {queue : List Path}
    (h : queueAppend setup files path = .ok (root, queue)) :
    ∃ paths, candidates setup path = .ok (root, paths) ∧ queue = retainNew root (files.map FileEntry.path) paths := by
  unfold queueAppend at h
  unfold candidates
  split at h
  · rename_i hdir
    obtain ⟨paths, hpaths, h⟩ := Except.bind_eq_ok.1 h
    obtain ⟨rfl, rfl⟩ := Prod.mk.inj (Except.ok.inj h)
    exact ⟨paths, by rw [if_pos hdir, hpaths]; rfl, rfl⟩
  · rename_i hdir
    obtain ⟨rfl, rfl⟩ := Prod.mk.inj (Except.ok.inj h)
    exact ⟨_, if_neg hdir, rfl⟩

/-- **Passing over what is there** does not matter for a name that is not. -/
theorem find?_retainNew {root name : Path} : ∀ {paths taken : List Path}, name ∉ taken →
    (retainNew root taken paths).find? (fun p => p.stripPrefix root = some name) =
      paths.find? fun p => p.stripPrefix root = some name
  | [], _, _ => rfl
  | p :: paths, taken, hnew => by
    unfold retainNew
    cases hstrip : p.stripPrefix root with
    | none =>
      dsimp only
      rw [List.find?_cons_of_neg (by simp [hstrip]), List.find?_cons_of_neg (by simp [hstrip]), find?_retainNew hnew]
    | some stripped =>
      dsimp only
      by_cases hname : stripped = name
      · subst hname
        rw [if_neg hnew, List.find?_cons_of_pos (by simp [hstrip]), List.find?_cons_of_pos (by simp [hstrip])]
      · have hskip : ∀ rest : List Path, (p :: rest).find? (fun p => p.stripPrefix root = some name) =
            rest.find? fun p => p.stripPrefix root = some name := fun rest =>
          List.find?_cons_of_neg (by simpa [hstrip] using hname)
        rw [hskip]
        split
        · exact find?_retainNew hnew
        · rw [hskip]
          refine find?_retainNew fun h => ?_
          rcases List.mem_cons.1 h with h | h
          · exact hname h.symm
          · exact hnew h

/-- The sources of a queue, by their names. -/
theorem lookup_sources {os : Os} {root : Path} {bs : Nat} {name : Path} : ∀ {queue : List Path} {srcs : List Source},
    List.Forall₂ (fun p src => observe os root bs p = .ok src) queue srcs →
    (srcs.map fun src => (src.path, src.item)).lookup name =
      (queue.find? fun p => p.stripPrefix root = some name).bind (seen os root bs)
  | [], [], .nil => rfl
  | p :: queue, src :: srcs, .cons hp hrest => by
    have hstrip : p.stripPrefix root = some src.path := (observe_ok hp).2.1
    rw [List.map_cons, List.lookup_cons]
    by_cases hname : name = src.path
    · subst hname
      rw [List.find?_cons_of_pos (by simp [hstrip])]
      simp [seen, hp, Except.toOption]
    · have hne : (name == src.path) = false := by simpa using hname
      rw [List.find?_cons_of_neg (by simpa [hstrip] using fun h => hname h.symm), ← lookup_sources hrest, hne]

/-! ## What is read of an archive -/

variable {K : Crates}

namespace ArchiveReader

variable (K) in
/-- What is read of an entry. -/
def item (r : ArchiveReader) (e : FileEntry) : Option Item :=
  (r.decodeEntry K e).toOption.map fun content => ⟨e.ftype, e.permissions, e.timestamp, e.symlinkTarget, content⟩

variable (K) in
/-- What is read under a path: the first entry that has it. -/
def lookup (r : ArchiveReader) (name : Path) : Option Item :=
  (r.index.files.find? fun e => e.path = name).bind (r.item K)

variable (K) in
/-- The entries are read as these items, one for one. -/
def Lists (r : ArchiveReader) (items : List (Path × Item)) : Prop :=
  r.index.files.map (fun e => (e.path, r.item K e)) = items.map fun x => (x.1, some x.2)

theorem Lists.lookup {r : ArchiveReader} {items : List (Path × Item)} (h : r.Lists K items) (name : Path) :
    r.lookup K name = items.lookup name := by
  unfold Lists at h
  unfold ArchiveReader.lookup
  generalize r.index.files = files at h
  induction files generalizing items with
  | nil =>
    obtain rfl := List.map_eq_nil_iff.1 h.symm
    rfl
  | cons e files ih =>
    cases items with
    | nil => cases h
    | cons x items =>
      obtain ⟨hhead, htail⟩ := List.cons.inj h
      obtain ⟨hpath, hitem⟩ := Prod.mk.inj hhead
      rw [List.lookup_cons]
      by_cases hname : name = x.1
      · subst hname
        rw [List.find?_cons_of_pos (by simpa using hpath)]
        simpa using hitem
      · have hne : (name == x.1) = false := by simpa using hname
        rw [List.find?_cons_of_neg (by simpa [hpath] using fun h => hname h.symm), hne]
        exact ih htail

end ArchiveReader

/-- **A source is read back** from the archive that its run has finished. -/
theorem Finished.item_source {arch : ArchiveWriter} {im : Image K} {raws : List Bytes} {srcs : List Source} {bs pos : Nat}
    (hf : Finished arch im (raws ++ chunks bs (Source.stream srcs))) (hpos : pos = raws.flatten.length)
    (hsmall : arch.header.blockSize + 16 < 2 ^ 32) (hoff : arch.filePosition < 2 ^ 63)
    (hengine : DecompressingEngine.new K arch.header.compression = .ok ⟨arch.header.compression⟩)
    (hsrcs : ∀ src ∈ srcs, src.Unchanged) (p out : Path) (limits : Limits) :
    (Source.entries pos srcs).map (fun e => (e.path, (arch.reader p out limits).item K e)) =
      srcs.map fun src => (src.path, some src.item) := by
  refine List.ext_getElem? fun i => ?_
  rw [List.getElem?_map, List.getElem?_map]
  cases hi : srcs[i]? with
  | none =>
    have hnone : (Source.entries pos srcs)[i]? = none := by
      rw [List.getElem?_eq_none_iff] at hi ⊢
      rwa [Source.length_entries]
    rw [hnone]
    rfl
  | some src =>
    obtain ⟨a, b, hstream, hentry⟩ := Source.locate pos hi
    have hsize : (src.entry (pos + a.length)).size = src.data.length := (hsrcs _ (List.mem_of_getElem? hi)).symm
    have hdecode : (arch.reader p out limits).decodeEntry K (src.entry (pos + a.length)) = .ok src.data := by
      rw [hf.decodeEntry hsmall hoff hengine p out limits, hsize, Source.entry_streamOffset, List.flatten_append,
        flatten_chunks, hpos, hstream, ← List.append_assoc, ← List.append_assoc]
      rw [slice_mid_of_eq (by simp) rfl]
    rw [hentry, Option.map_some, Option.map_some]
    unfold ArchiveReader.item
    rw [hdecode]
    rfl

/-! ## An archive represents a map -/

variable (K) in
/-- The archive represents the map `s`. -/
def Stores (arch : ArchiveWriter) (s : Store) : Prop :=
  ∃ items, (∀ p out limits, (arch.reader p out limits).Lists K items) ∧ s = fun name => items.lookup name

theorem Stores.lookup {arch : ArchiveWriter} {s : Store} (h : Stores K arch s) (p out : Path) (limits : Limits)
    (name : Path) : (arch.reader p out limits).lookup K name = s name := by
  obtain ⟨items, hlists, rfl⟩ := h
  exact (hlists p out limits).lookup name

/-- **A compression puts what it sees** into the empty map. -/
theorem Stores.compress (hK : K.Lawful) {setup : Setup} {env : Env} {args : CompressArgs} {arch : ArchiveWriter}
    (hone : 1 ≤ args.bs) (hmax : args.bs ≤ MAX_BLOCK_SIZE) (hstill : env.os.Still)
    (hrun : initializeCompression K setup env args = .ok arch) (hoff : arch.filePosition < 2 ^ 63) :
    ∃ root paths, queueFiles setup args.pathToCompress args.recursive = .ok (root, paths) ∧
      Stores K arch (Store.empty.add (seen env.os root args.bs) root paths) := by
  have hsmall : args.bs + 16 < 2 ^ 32 := Nat.lt_of_le_of_lt (Nat.add_le_add_right hmax 16) (by decide)
  obtain ⟨im, root, queue, srcs, hqueue, hobs, hf, hbs, hfiles, hengine⟩ :=
    initializeCompression_finished hK hrun (.inl (initializeCompression_blockSize hrun ▸ hsmall))
  have hsrcs : ∀ src ∈ srcs, src.Unchanged := Steady.unchanged ⟨hone, hstill⟩ hobs
  refine ⟨root, queue, hqueue, srcs.map fun src => (src.path, src.item), fun p out limits => ?_, funext fun name => ?_⟩
  · have hall : Finished arch im ([] ++ chunks args.bs (Source.stream srcs)) := hf
    have hsource := hall.item_source rfl (hbs ▸ hsmall) hoff hengine hsrcs p out limits
    show (arch.index.files.map fun e => (e.path, (arch.reader p out limits).item K e)) = _
    rw [hfiles, List.map_map]
    exact hsource
  · exact (lookup_sources hobs).symm

/-- **An append adds what it sees** and is not there yet. -/
theorem Stores.append (hK : K.Lawful) {arch arch' : ArchiveWriter} {s : Store} (h : Stores K arch s)
    (hchain : Chain K arch) (hfits : Unnarrowed K arch) {setup : AppendSetup} {env : Env} {args : AppendArgs}
    (hkey : Cipher.new K setup.prompts arch.header args.confirm = .ok arch.cipher) (hstill : env.os.Still)
    (happ : appendFile K setup env arch.writer.bytes args = .ok arch') (hoff : arch'.filePosition < 2 ^ 63) :
    ∃ root paths, candidates setup args.fileToAppend = .ok (root, paths) ∧
      Stores K arch' (s.add (seen env.os root arch.header.blockSize) root paths) := by
  obtain ⟨items, hlists, rfl⟩ := h
  obtain ⟨im, raws, hf, hengine, hsmall⟩ := hchain.finished hK
  obtain ⟨_, hone, _⟩ := hchain.made hK
  obtain ⟨_, _, _, _, _, hload, _⟩ := appendFile_ok happ
  obtain ⟨im', root, queue, srcs, processed, hqueue, hobs, hf', _, _, hheader, hcipher, hfiles, hblock⟩ :=
    appendFile_finished hK hf (hf.sizes_of_retrieve hK hfits hload) hkey happ
  obtain ⟨paths, hpaths, rfl⟩ := queueAppend_candidates hqueue
  have hgrown := hchain.grown hK hfits hkey happ
  refine ⟨root, paths, hpaths, items ++ srcs.map fun src => (src.path, src.item), fun p out limits => ?_,
    funext fun name => ?_⟩
  · have hsource := hf'.item_source hf.total (hheader ▸ hsmall) hoff (hheader ▸ hengine)
      (Steady.unchanged ⟨hone, hstill⟩ hobs) p out limits
    have hold : arch.index.files.map (fun e => (e.path, (arch'.reader p out limits).item K e)) =
        items.map fun x => (x.1, some x.2) := by
      rw [← hlists p out limits]
      refine List.map_congr_left fun e he => ?_
      obtain ⟨plain, hplain, hplain'⟩ := hgrown.decodes hK hchain hfits.offset hoff he p out limits
      unfold ArchiveReader.item
      rw [hplain, hplain']
    show (arch'.index.files.map fun e => (e.path, (arch'.reader p out limits).item K e)) = _
    rw [hfiles, List.map_append, hold, hsource, List.map_append, List.map_map]
    rfl
  · show (items.lookup name).or _ = _
    rw [List.lookup_append, lookup_sources hobs]
    cases hlookup : items.lookup name with
    | some item => rfl
    | none =>
      -- a name that is not there is passed over nowhere
      have hnames : arch.index.files.map FileEntry.path = items.map Prod.fst := by
        have hboth := congrArg (List.map Prod.fst) (hlists [] [] Limits.default)
        rw [List.map_map, List.map_map] at hboth
        exact hboth
      have hnew : name ∉ arch.index.files.map FileEntry.path := by
        rw [hnames]
        intro hmem
        obtain ⟨x, hx, rfl⟩ := List.mem_map.1 hmem
        exact absurd (List.lookup_eq_none_iff.1 hlookup x hx) (by simp)
      rw [find?_retainNew hnew]

/-! ## Calls on the disk -/

/-- What a call adds to the map: if it has returned `Ok`, what it sees. -/
def AppendTask.effect (bs : Nat) (task : AppendTask) (c : AppendCall) (s : Store) : Store :=
  match c.stage, candidates task.setup task.args.fileToAppend with
  | .returned (.ok ()), .ok (root, paths) => s.add (seen task.env.os root bs) root paths
  | _, _ => s

/-- **An archive is a map in which what was put first stays.** A compression has returned `Ok` in some schedule, and any
calls of `append_file` follow, with the same password and on files that do not change, each in a schedule of its own and
successful, failed or killed at any moment. Beside them runs the map: it starts with what the compression sees below its
root, and each call that has returned `Ok` adds what it sees. In the end the archive opens, and under every path it has
what the map has there. -/
theorem store_refined (hK : K.Lawful) {setup : Setup} {os : Os} {indexNonce : Nonce} {args : CompressArgs}
    {headerBytes : Bytes} {archive copy : Loc} {d d' : Disk} {calls : List (AppendTask × List AppendMove)} {s : Store}
    {root : Path} {paths : List Path} (hheader : K.headerToVec (args.header setup) = some headerBytes)
    (hbuffer : ∀ faults, setup.createNew (archiveFilename args.archiveName) = some faults → faults 0 = none)
    (hone : 1 ≤ args.bs) (hmax : args.bs ≤ MAX_BLOCK_SIZE) (hstill : os.Still) (hscans : setup.Scans)
    (hreturned : Returns K setup os indexNonce args none (.ok ()) (d.read archive))
    (hqueue : queueFiles setup args.pathToCompress args.recursive = .ok (root, paths))
    (hlink : ∀ t, d.entry copy ≠ some (.link t))
    (halias : ∀ o, d.entry copy = some (.file o) → d.opens archive ≠ some o)
    (hcalls : ∀ call ∈ calls, call.1.archive = archive ∧ call.1.copy = copy ∧ call.1.env.os.Still ∧
      Cipher.new K call.1.setup.prompts (args.header setup) call.1.args.confirm =
        Cipher.new K setup.prompts (args.header setup) args.confirm)
    (hfits : ∀ pre d₁ a, pre <+: calls → runCalls K pre d = some d₁ → Chain K a →
      d₁.read archive = some a.writer.bytes → Unnarrowed K a)
    (hrun : runCallsOn K (AppendTask.effect args.bs) calls d (Store.empty.add (seen os root args.bs) root paths)
      = some (d', s)) :
    ∃ arch', d'.read archive = some arch'.writer.bytes ∧
      (∀ limits, Sizes K limits arch' → ∀ p out,
        ∃ r, ArchiveReader.new K arch'.writer.bytes p out limits setup.prompts args.confirm = .ok r) ∧
      ∀ limits p out r, ArchiveReader.new K arch'.writer.bytes p out limits setup.prompts args.confirm = .ok r →
        ∀ name, r.lookup K name = s name := by
  obtain ⟨draws, arch, hmade, hread, hchain, hsame, hkey⟩ :=
    chain_of_returns hreturned hheader hbuffer hone hmax hstill hscans
  have hkeys : ∀ call ∈ calls, call.1.archive = archive ∧ call.1.copy = copy ∧ call.1.env.os.Still ∧
      Cipher.new K call.1.setup.prompts arch.header call.1.args.confirm = .ok arch.cipher := by
    intro call hmem
    obtain ⟨harchive, hcopy, hos, hcipher⟩ := hcalls call hmem
    exact ⟨harchive, hcopy, hos, by rw [hsame, hcipher, hkey]⟩
  have hoff : arch.filePosition < 2 ^ 63 := (hfits [] d arch List.nil_prefix rfl hchain hread).offset
  have hstores : Stores K arch (Store.empty.add (seen os root args.bs) root paths) := by
    have hstill' : (⟨os, draws, .sequential⟩ : Env).os.Still := hstill
    obtain ⟨root', paths', hqueue', h⟩ := Stores.compress hK hone hmax hstill' (hmade .sequential) hoff
    obtain ⟨rfl, rfl⟩ := Prod.mk.inj (Except.ok.inj (hqueue.symm.trans hqueue'))
    exact h
  have hbs : arch.header.blockSize = args.bs := by rw [hsame]; rfl
  obtain ⟨arch', hchain', ⟨hstores', hsame', hcipher'⟩, hstands', _⟩ :=
    runCallsOn_rule hK (I := fun a s => Stores K a s ∧ a.header = arch.header ∧ a.cipher = arch.cipher)
      (fun {task c draws a a' s} hchain hI hfits hfits' hkey hstill hreturned happ => by
        have hgrown := hchain.grown hK hfits hkey happ
        have hstill' : (⟨task.env.os, draws, .sequential⟩ : Env).os.Still := hstill
        obtain ⟨root, paths, hpaths, hadded⟩ := hI.1.append hK hchain hfits hkey hstill' happ hfits'.offset
        rw [hI.2.1, hbs] at hadded
        refine ⟨?_, hgrown.header.trans hI.2.1, hgrown.cipher.trans hI.2.2⟩
        unfold AppendTask.effect
        rw [hreturned, hpaths]
        exact hadded)
      (fun {task c a s} hI hreturned => by
        unfold AppendTask.effect
        split
        · rename_i hstage _
          exact absurd hstage hreturned
        · exact hI)
      hchain ⟨hstores, rfl, rfl⟩ ⟨hread, hlink, halias⟩ hkeys hfits hrun
  have hopens : ∀ limits, Sizes K limits arch' → ∀ p out,
      ArchiveReader.new K arch'.writer.bytes p out limits setup.prompts args.confirm = .ok (arch'.reader p out limits) :=
    fun limits hs p out => (hchain'.verifies hK hs (by rw [hsame', hcipher', hsame]; exact hkey) p out).1
  refine ⟨arch', hstands'.read, fun limits hs p out => ⟨_, hopens limits hs p out⟩, fun limits p out r hnew name => ?_⟩
  -- what was loaded is within the limits, and so the reader of the archive
  have hruns : runCalls K calls d = some d' := by
    rw [← runCallsOn_eq (AppendTask.effect args.bs), hrun]
    rfl
  obtain ⟨im, raws, hf, _⟩ := hchain'.finished hK
  obtain ⟨_, hload, _⟩ := ArchiveReader.new_ok.1 hnew
  have hs := hf.sizes_of_retrieve hK (hfits calls d' arch' (List.prefix_refl _) hruns hchain' hstands'.read) hload
  obtain rfl := Except.ok.inj (hnew.symm.trans (hopens limits hs p out))
  exact hstores'.lookup p out limits name

/-- The map has `src/a`, and `src/b` once the second call has returned. -/
theorem store_refined_twice :
    let K := Crates.tabled [Header.stored 2] [indexOfA, indexOfAB]
    let d := Disk.ofFiles [(["a.cryo"], storedA)]
    let item : Bytes → Item := fun content => ⟨.file, 0o644, 0, none, content⟩
    ∃ (d' : Disk) (bytes : Bytes) (r : ArchiveReader), runCalls K twoCalls d = some d' ∧
      d'.read ["a.cryo"] = some bytes ∧
      ArchiveReader.new K bytes [] [] Limits.default ⟨none, none⟩ false = .ok r ∧
      r.lookup K [.normal "a"] = some (item [1, 2, 3]) ∧ r.lookup K [.normal "b"] = some (item [4, 5]) ∧
      r.lookup K [.normal "c"] = none := by
  intro K d item
  let os := Os.ofFiles [([.normal "src", .normal "a"], 3, [1, 2, 3])]
  let args := { CompressArgs.single with bs := 2 }
  let map := Store.empty.add (seen os [.normal "src"] args.bs) [.normal "src"] [[.normal "src", .normal "a"]]
  obtain ⟨hcall, hnone, hfits⟩ := twoCalls_ready
  have hlink : ∀ t, d.entry AppendTask.two.copy ≠ some (.link t) := by simp [d, hnone]
  have hshown : (runCallsOn K (AppendTask.effect args.bs) twoCalls d map).map
      (fun x => (x.2 [.normal "a"], x.2 [.normal "b"], x.2 [.normal "c"],
        (x.1.read ["a.cryo"]).map fun bytes =>
          (ArchiveReader.new K bytes [] [] Limits.default ⟨none, none⟩ false).toOption.isSome)) =
      some (some (item [1, 2, 3]), some (item [4, 5]), none, some true) := by decide +kernel
  obtain ⟨⟨d', s⟩, hrun, hs⟩ := Option.map_eq_some_iff.1 hshown
  simp only [Prod.mk.injEq] at hs
  obtain ⟨ha, hb, hc, hopens⟩ := hs
  obtain ⟨arch', hread, _, hlookup⟩ := store_refined (Crates.tabled_lawful _ _)
    (show K.headerToVec (args.header Setup.single) = some [] by decide +kernel) (fun faults hf => by cases hf; rfl)
    (by decide) (by decide) (Os.ofFiles_still (by decide)) (fun _ _ h => by cases h) hcall rfl hlink (by simp [hnone])
    (fun call hmem => by
      have hcalls : ∀ call ∈ twoCalls, call.1 = AppendTask.two := by simp [twoCalls]
      rw [hcalls call hmem]
      exact ⟨rfl, rfl, Os.ofFiles_still (by decide), rfl⟩) hfits hrun
  rw [hread] at hopens
  obtain ⟨r, hr⟩ := Option.isSome_iff_exists.1 (Option.some.inj hopens)
  have hnew : ArchiveReader.new K arch'.writer.bytes [] [] Limits.default ⟨none, none⟩ false = .ok r := by
    cases hload : ArchiveReader.new K arch'.writer.bytes [] [] Limits.default ⟨none, none⟩ false with
    | error e => rw [hload] at hr; cases hr
    | ok r' => rw [hload] at hr; exact congrArg _ (Option.some.inj hr)
  have hname := hlookup Limits.default [] [] r hnew
  refine ⟨d', arch'.writer.bytes, r, ?_, hread, hnew, (hname _).trans ha, (hname _).trans hb, (hname _).trans hc⟩
  rw [← runCallsOn_eq (AppendTask.effect args.bs) twoCalls d map, hrun]
  rfl

end Cryo
