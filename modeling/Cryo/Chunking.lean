import Cryo.Reading

/-!
# The raw blocks depend on the stream only

How the operating system splits a file into reads does not show in what is sent: whole blocks of the stream, with
consecutive numbers (`Chunked`, `chunking`). A read fills a buffer of the block size, so there is none for a block size
that no buffer can have (`chunking_panics`).

The position and the block number of the source are `u64`. Here they are natural numbers, which is the same as long as
neither reaches 2^64: that it does not is asked of the stream, and no counter goes beyond it (`Chunked.blockId_le`).
-/

namespace Cryo

open Posix Chunk

/-- A regular file below the root that holds `content`, in whatever pieces its reads return it. -/
structure Serves (os : Os) (root : Path) (bs : Nat) (p : Path) (content : Bytes) : Prop where
  metadata : ∃ m, os.symlinkMetadata p = .ok m ∧ m.kind = .file
  below : (p.stripPrefix root).isSome
  reads : ∃ file, os.openFile p = .ok file ∧ file.err bs = none ∧ (file.reads bs).flatten = content

/-- What reading files with these contents makes of a state. -/
structure Chunked (bs : Nat) (s : ReadState) (contents : List Bytes) (s' : ReadState) : Prop where
  /-- Whole blocks of the stream were sent, the rest is pending. -/
  blocks : ∃ cs, s.pendingBuffer ++ contents.flatten = cs.flatten ++ s'.pendingBuffer ∧ (∀ c ∈ cs, c.length = bs) ∧
    s'.sent = s.sent ++ numbered s.blockId cs ∧ s'.blockId = s.blockId + cs.length
  short : s'.pendingBuffer.length < bs
  position : s'.streamPosition = s.streamPosition + contents.flatten.length
  /-- Each entry stands behind the files before it. -/
  entries : ∃ es, s'.files = s.files ++ es ∧ es.length = contents.length ∧
    ∀ i e, es[i]? = some e → e.ftype = .file ∧ e.streamOffset = s.streamPosition + (contents.take i).flatten.length

/-- The blocks that were sent were in the stream. -/
theorem Chunked.blockId_le {bs : Nat} (hbs : 1 ≤ bs) {s s' : ReadState} {contents : List Bytes}
    (h : Chunked bs s contents s') :
    s'.blockId ≤ s.blockId + (s.pendingBuffer.length + contents.flatten.length) / bs := by
  obtain ⟨cs, hstream, hlen, _, hid⟩ := h.blocks
  have hsum : cs.flatten.length = cs.length * bs := by
    rw [List.length_flatten, List.eq_replicate_of_mem (l := cs.map List.length) (a := bs) (by simpa using hlen)]
    simp
  have htotal := congrArg List.length hstream
  rw [List.length_append, List.length_append, hsum] at htotal
  have : cs.length ≤ (s.pendingBuffer.length + contents.flatten.length) / bs :=
    (Nat.le_div_iff_mul_le hbs).2 (by omega)
  omega

variable {os : Os} {root p : Path} {bs : Nat} {content : Bytes}

/-- What a run sees of such a file. -/
theorem Serves.observe (h : Serves os root bs p content) (hmax : bs < 2 ^ 63) :
    ∃ m path, os.symlinkMetadata p = .ok m ∧ m.kind = .file ∧ p.stripPrefix root = some path ∧
      Cryo.observe os root bs p = .ok ⟨path, m, none, content⟩ := by
  obtain ⟨m, hm, hkind⟩ := h.metadata
  obtain ⟨path, hpath⟩ := Option.isSome_iff_exists.1 h.below
  obtain ⟨file, hfile, herr, hreads⟩ := h.reads
  refine ⟨m, path, hm, hkind, hpath, ?_⟩
  have hft : m.ftype = .file := by
    unfold Metadata.ftype
    rw [hkind]
  unfold Cryo.observe stripRoot allocBuffer readFailed
  rw [hm, hpath, if_pos hmax]
  simp only [Except.mapError, Except.ok_bind, hft, hfile, herr, hreads]

/-- The entries of regular files, with the offsets of their contents. -/
theorem getElem?_entries : ∀ {srcs : List Source} {pos i : Nat} {e : FileEntry},
    (Source.entries pos srcs)[i]? = some e → ∃ src ∈ srcs, e.ftype = src.metadata.ftype ∧
      e.streamOffset = pos + ((srcs.map Source.data).take i).flatten.length
  | src :: srcs, pos, 0, e, h => by
    cases h
    exact ⟨src, List.mem_cons_self, rfl, rfl⟩
  | src :: srcs, pos, i + 1, e, h => by
    obtain ⟨src', hmem, hft, hoff⟩ := getElem?_entries (show (Source.entries _ srcs)[i]? = some e from h)
    refine ⟨src', List.mem_cons_of_mem _ hmem, hft, ?_⟩
    rw [hoff, List.map_cons, List.take_succ_cons, List.flatten_cons, List.length_append, Nat.add_assoc]

/-- **What a run over regular files leaves**, from their sources. -/
theorem chunked_of_sources (hbs : 1 ≤ bs) {s : ReadState} (hs : s.pendingBuffer.length < bs) {srcs : List Source}
    (hfiles : ∀ src ∈ srcs, src.metadata.ftype = .file) :
    Chunked bs s (srcs.map Source.data) (srcs.foldl (ReadState.add bs) s) := by
  have hstream : (srcs.map Source.data).flatten = Source.stream srcs := List.flatMap_def.symm
  rw [ReadState.foldl_add (fun _ => hs) (.inl hbs)]
  exact {
    blocks := by
      rw [hstream]
      exact ⟨_, (flatten_fullChunks bs _).symm, fun c hc => length_of_mem_fullChunks hc, rfl, rfl⟩
    short := length_leftover_lt hbs _
    position := by rw [hstream]; rfl
    entries := by
      refine ⟨_, rfl, by simp, fun i e he => ?_⟩
      obtain ⟨src, hsrc, hft, hoff⟩ := getElem?_entries he
      exact ⟨hft.trans (hfiles src hsrc), hoff⟩ }

/-- The sources of files that are served in two ways are the same. -/
theorem exists_sources {os₁ os₂ : Os} (hmax : bs < 2 ^ 63) : ∀ {files : List (Path × Bytes)},
    (∀ f ∈ files, Serves os₁ root bs f.1 f.2) → (∀ f ∈ files, Serves os₂ root bs f.1 f.2) →
    (∀ f ∈ files, os₁.symlinkMetadata f.1 = os₂.symlinkMetadata f.1) →
    ∃ srcs, List.Forall₂ (fun p src => observe os₁ root bs p = .ok src) (files.map Prod.fst) srcs ∧
      List.Forall₂ (fun p src => observe os₂ root bs p = .ok src) (files.map Prod.fst) srcs ∧
      srcs.map Source.data = files.map Prod.snd ∧ ∀ src ∈ srcs, src.metadata.ftype = .file
  | [], _, _, _ => ⟨[], .nil, .nil, rfl, fun _ h => by cases h⟩
  | f :: files, h₁, h₂, hsame => by
    obtain ⟨srcs, hobs₁, hobs₂, hdata, hfiles⟩ := exists_sources hmax
      (fun g hg => h₁ g (List.mem_cons_of_mem _ hg)) (fun g hg => h₂ g (List.mem_cons_of_mem _ hg))
      fun g hg => hsame g (List.mem_cons_of_mem _ hg)
    obtain ⟨m, path, hm, hkind, hpath, hsee₁⟩ := (h₁ f List.mem_cons_self).observe hmax
    obtain ⟨m', path', hm', _, hpath', hsee₂⟩ := (h₂ f List.mem_cons_self).observe hmax
    obtain rfl : m = m' := Except.ok.inj (hm.symm.trans ((hsame f List.mem_cons_self).trans hm'))
    obtain rfl : path = path' := Option.some.inj (hpath.symm.trans hpath')
    refine ⟨⟨path, m, none, f.2⟩ :: srcs, .cons hsee₁ hobs₁, .cons hsee₂ hobs₂, by rw [List.map_cons, hdata]; rfl, ?_⟩
    intro src hsrc
    rcases List.mem_cons.1 hsrc with rfl | hsrc
    · show m.ftype = .file
      unfold Metadata.ftype
      rw [hkind]
    · exact hfiles src hsrc

/-- **Chunking depends on the stream only.** Regular files that two operating systems serve with the same metadata and
contents, in any pieces, lead to one state: the whole blocks of what was pending and the contents were sent. The stream
ends below 2^64, and so do its counters. -/
theorem chunking (hbs : 1 ≤ bs) (hmax : bs < 2 ^ 63) {s : ReadState} (hs : s.pendingBuffer.length < bs)
    {files : List (Path × Bytes)} {os₁ os₂ : Os} (h₁ : ∀ f ∈ files, Serves os₁ root bs f.1 f.2)
    (h₂ : ∀ f ∈ files, Serves os₂ root bs f.1 f.2)
    (hsame : ∀ f ∈ files, os₁.symlinkMetadata f.1 = os₂.symlinkMetadata f.1)
    (hposition : s.streamPosition + (files.map Prod.snd).flatten.length < 2 ^ 64)
    (hid : s.blockId + (s.pendingBuffer.length + (files.map Prod.snd).flatten.length) / bs < 2 ^ 64) :
    ∃ s', readFiles os₁ root bs (files.map Prod.fst) s = (.ok (), s') ∧
      readFiles os₂ root bs (files.map Prod.fst) s = (.ok (), s') ∧ Chunked bs s (files.map Prod.snd) s' ∧
      s'.streamPosition < 2 ^ 64 ∧ s'.blockId < 2 ^ 64 := by
  obtain ⟨srcs, hobs₁, hobs₂, hdata, hfiles⟩ := exists_sources hmax h₁ h₂ hsame
  have hchunked : Chunked bs s (files.map Prod.snd) (srcs.foldl (ReadState.add bs) s) := by
    rw [← hdata]
    exact chunked_of_sources hbs hs hfiles
  exact ⟨_, readFiles_of_observe (fun _ => hs) hobs₁, readFiles_of_observe (fun _ => hs) hobs₂, hchunked,
    hchunked.position ▸ hposition, Nat.lt_of_le_of_lt (hchunked.blockId_le hbs) hid⟩

theorem OpenFile.flatten_ofContent {n : Nat} (hn : 0 < n) (content : Bytes) :
    ((OpenFile.ofContent content).reads n).flatten = content := by
  show (if n = 0 then [] else chunks n content).flatten = content
  rw [if_neg (by omega), flatten_chunks]

/-- A file read byte by byte. -/
def OpenFile.bytewise (content : Bytes) : OpenFile where
  __ := OpenFile.ofContent content
  reads n := if n = 0 then [] else content.map fun b => [b]
  fits n d hd := by
    split at hd
    · cases hd
    · obtain ⟨b, _, rfl⟩ := List.mem_map.1 hd
      exact ⟨Nat.one_pos, by simp only [List.length_singleton]; omega⟩

/-- Files of three bytes and of none, read in full buffers and byte by byte. -/
theorem chunking_small :
    let a : Path := [.normal "a"]
    let b : Path := [.normal "b"]
    let os₁ := Os.ofFiles [(a, 3, [1, 2, 3]), (b, 0, [])]
    let os₂ := { os₁ with openFile := fun p => if p = a then .ok (.bytewise [1, 2, 3]) else .ok (.bytewise []) }
    ∃ s', readFiles os₁ [] 2 [a, b] ⟨[], 5, 7, [9], []⟩ = (.ok (), s') ∧
      readFiles os₂ [] 2 [a, b] ⟨[], 5, 7, [9], []⟩ = (.ok (), s') ∧
      Chunked 2 ⟨[], 5, 7, [9], []⟩ [[1, 2, 3], []] s' ∧ s'.sent = [⟨7, [9, 1]⟩, ⟨8, [2, 3]⟩] := by
  intro a b os₁ os₂
  have h₁ : ∀ f ∈ [(a, [1, 2, 3]), (b, [])], Serves os₁ [] 2 f.1 f.2 := by
    intro f hf
    rcases List.mem_cons.1 hf with rfl | hf
    · exact ⟨⟨_, rfl, rfl⟩, rfl, _, rfl, rfl, OpenFile.flatten_ofContent (by decide) _⟩
    · obtain rfl := List.mem_singleton.1 hf
      exact ⟨⟨_, rfl, rfl⟩, rfl, _, rfl, rfl, OpenFile.flatten_ofContent (by decide) _⟩
  have h₂ : ∀ f ∈ [(a, [1, 2, 3]), (b, [])], Serves os₂ [] 2 f.1 f.2 := by
    intro f hf
    rcases List.mem_cons.1 hf with rfl | hf
    · exact ⟨⟨_, rfl, rfl⟩, rfl, _, rfl, rfl, rfl⟩
    · obtain rfl := List.mem_singleton.1 hf
      exact ⟨⟨_, rfl, rfl⟩, rfl, _, rfl, rfl, rfl⟩
  obtain ⟨s', hrun₁, hrun₂, hchunked, _⟩ := chunking (s := ⟨[], 5, 7, [9], []⟩) (by decide) (by decide) (by decide)
    h₁ h₂ (fun _ _ => rfl) (by decide) (by decide)
  refine ⟨s', hrun₁, hrun₂, hchunked, ?_⟩
  have hsent : (readFiles os₂ [] 2 [a, b] ⟨[], 5, 7, [9], []⟩).2.sent = [⟨7, [9, 1]⟩, ⟨8, [2, 3]⟩] := by decide +kernel
  have hrun₂ : readFiles os₂ [] 2 [a, b] ⟨[], 5, 7, [9], []⟩ = (.ok (), s') := hrun₂
  rw [hrun₂] at hsent
  exact hsent

/-- **A buffer of 2^63 bytes cannot be allocated**: the call panics after the first entry. -/
theorem chunking_panics :
    let a : Path := [.normal "a"]
    let os := Os.ofFiles [(a, 1, [7])]
    let run := readFiles os [] (2 ^ 63) [a] ⟨[], 0, 0, [], []⟩
    Serves os [] (2 ^ 63) a [7] ∧ run.1 = .error (.panic "capacity overflow") ∧
      ¬ Chunked (2 ^ 63) ⟨[], 0, 0, [], []⟩ [[7]] run.2 := by
  intro a os run
  refine ⟨⟨⟨_, rfl, rfl⟩, rfl, .ofContent [7], rfl, rfl, OpenFile.flatten_ofContent (Nat.two_pow_pos 63) [7]⟩,
    by decide +kernel, fun h => ?_⟩
  have hposition : run.2.streamPosition = 0 := by decide +kernel
  have hmoved := h.position
  rw [hposition] at hmoved
  cases hmoved

end Cryo
