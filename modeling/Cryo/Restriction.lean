import Cryo.Decompress
import Cryo.Entries

/-!
# Filtered extraction

A filter keeps some entries of the index. Whether a kept entry can be extracted, and what it leaves, depends on the
archive and the output directory and not on the entries before it, so a filtered extraction is the restriction of the
full one.

* `filtered_restricts`: for entries whose names are distinct and that stand beside each other.
* `dotted_twin`: `a` and `./a` are different paths with the same name; keeping the first changes what stands there.
-/

namespace Cryo

open Posix World

variable {K : Crates}

namespace ArchiveReader

variable {r : ArchiveReader} {R : Loc} {w₀ w : World}

theorem collectBlocks_filtered (keep : FileEntry → Bool) (a b : Nat) (engine : DecompressingEngine) :
    ∀ blocks : List ((Nat × Nat) × Nat),
      (r.filtered keep).collectBlocks K a b engine blocks = r.collectBlocks K a b engine blocks
  | [] => rfl
  | ((start, stop), i) :: rest => by
    unfold collectBlocks
    rw [collectBlocks_filtered keep a b engine rest]
    rfl

/-- The block list of a filtered reader is the whole one, so an entry decodes to the same bytes. -/
theorem decodeEntry_filtered (keep : FileEntry → Bool) (f : FileEntry) :
    (r.filtered keep).decodeEntry K f = r.decodeEntry K f := by
  unfold decodeEntry
  simp only [collectBlocks_filtered]
  rfl

theorem outcome_filtered (keep : FileEntry → Bool) (f : FileEntry) :
    (r.filtered keep).outcome K w₀ R f = r.outcome K w₀ R f := by
  unfold outcome
  rw [decodeEntry_filtered]
  rfl

theorem Good.filtered {f : FileEntry} (h : r.Good K w₀ R f) (keep : FileEntry → Bool) :
    (r.filtered keep).Good K w₀ R f :=
  ⟨h.safe, h.size, h.range, h.named, h.link, fun hf => by
    unfold Decodable
    rw [decodeEntry_filtered]
    exact h.file hf⟩

/-- Entries with distinct names, of which only directories stand above others, stand beside each other. -/
theorem pairwise_beside {files : List FileEntry} (hdistinct : (files.map fun f => f.path.names).Nodup)
    (hancestor : ∀ f ∈ files, f.ftype ≠ .dir → ∀ g ∈ files, f.path.names <+: g.path.names →
      f.path.names = g.path.names) :
    (files.map FileEntry.place).Pairwise Beside := by
  refine List.pairwise_map.2 ((List.pairwise_map.1 hdistinct).imp_of_mem fun {f g} hf hg hne => ⟨?_, ?_⟩)
  · exact fun hd hpre => hne (hancestor f hf hd g hg hpre)
  · exact fun hd hpre => hne (hancestor g hg hd f hf hpre).symm

/-- **A filtered extraction is the restriction of the full one**: it succeeds, what it leaves of a kept entry is what
the full extraction leaves, and every file or link that it leaves was there before or belongs to a kept entry. -/
theorem filtered_restricts (hdistinct : (r.index.files.map fun f => f.path.names).Nodup)
    (hancestor : ∀ f ∈ r.index.files, f.ftype ≠ .dir → ∀ g ∈ r.index.files, f.path.names <+: g.path.names →
      f.path.names = g.path.names)
    (hvacant : w.Vacant r.root R) (keep : FileEntry → Bool) {w' : World} (hfull : r.handleFiles K w = (.ok (), w')) :
    ∃ w'', (r.filtered keep).handleFiles K w = (.ok (), w'') ∧
      (∀ f ∈ r.index.files, keep f = true → ∃ x, f.Stands x ∧
        w'.fs (R ++ f.path.names) = some x ∧ w''.fs (R ++ f.path.names) = some x) ∧
      ∀ l x, w''.fs l = some x → (∀ m, x ≠ .dir m) →
        w.fs l = some x ∨ ∃ f ∈ r.index.files, keep f = true ∧ f.ftype ≠ .dir ∧ l = R ++ f.path.names := by
  have hbeside := pairwise_beside hdistinct hancestor
  obtain ⟨w₀, hstart⟩ := exists_started hvacant
  obtain ⟨hgood, hgrown⟩ := (Act.of_wp (wp_handleFiles_iff (K := K) hstart hbeside)).1 () hfull
  have hbeside' : ((r.filtered keep).index.files.map FileEntry.place).Pairwise Beside :=
    hbeside.sublist (List.filter_sublist.map _)
  have hgood' : ∀ f ∈ (r.filtered keep).index.files, (r.filtered keep).Good K w₀ R f := fun f hf =>
    (hgood f (List.mem_filter.1 hf).1).filtered keep
  have hstart' : Started w (r.filtered keep).root R w₀ := hstart
  obtain ⟨_, w'', hrun, _, hgrown'⟩ := Act.exists_ok
    (Act.wp_mono (wp_handleFiles_iff (K := K) hstart' hbeside') (fun _ _ h => h) fun _ _ hbad => hbad hgood')
  refine ⟨w'', hrun, fun f hf hkeep => ?_, fun l x hx hnot => ?_⟩
  · by_cases hnil : f.path.names = []
    · -- the root itself
      obtain ⟨m, hm⟩ := FS.isDir_iff.1 hstart.root.isDir
      refine ⟨.dir m, ((hgood f hf).named hnil).1, ?_, ?_⟩
      · rw [hnil, List.append_nil, hgrown.kept R (by simp [hm]), hm]
      · rw [hnil, List.append_nil, hgrown'.kept R (by simp [hm]), hm]
    · obtain ⟨x, hx, hfs⟩ := hgrown.made f hf hnil
      obtain ⟨x', hx', hfs'⟩ := hgrown'.made f (List.mem_filter.2 ⟨hf, hkeep⟩) hnil
      rw [outcome_filtered] at hx'
      obtain rfl : x = x' := Option.some.inj (hx.symm.trans hx')
      exact ⟨x, stands_of_outcome hx, hfs, hfs'⟩
  · -- before the entries only directories were made
    have horigin : w''.fs l = w₀.fs l → w.fs l = some x := fun heq => by
      rw [heq] at hx
      rcases hstart.fresh.nodes l with heq | ⟨_, m, hdir, _⟩
      · rw [← heq, hx]
      · rw [hdir] at hx
        exact absurd (Option.some.inj hx).symm (hnot _)
    by_cases hin : R <+: l
    · obtain ⟨ns, rfl⟩ := hin
      by_cases hnil : ns = []
      · obtain ⟨m, hm⟩ := FS.isDir_iff.1 hstart.root.isDir
        refine .inl (horigin (hgrown'.kept _ ?_))
        rw [hnil, List.append_nil, hm]
        simp
      · rcases hgrown'.only ns x hnil hx with ⟨rfl, _⟩ | ⟨f, hf, hfd, rfl⟩
        · exact absurd rfl (hnot _)
        · obtain ⟨hf, hkeep⟩ := List.mem_filter.1 hf
          exact .inr ⟨f, hf, hkeep, hfd, rfl⟩
    · exact .inl (horigin (hgrown'.outside l hin))

end ArchiveReader

/-- A directory with a file, and a link beside it. -/
def filteredIndex : Index where
  files := [{ danglingEntry with path := [.normal "d"], ftype := .dir, size := 0 },
    emptyFile [.normal "d", .normal "f"], linkEntry "l" [.normal "d"]]
  block := []
  totalStreamSize := 0

/-- Only the file is kept: its directory is made all the same, the link is not. -/
theorem filtered_restricts_file :
    let K := Crates.tabled [Header.stored 512] [filteredIndex]
    let r := blocklessReader filteredIndex
    let keep : FileEntry → Bool := fun f => f.ftype = .file
    let w := World.ofDirs [[], ["out"]]
    ∃ w'', (r.filtered keep).handleFiles K w = (.ok (), w'') ∧
      (∃ x, w''.fs ["out", "d", "f"] = some x ∧ (r.handleFiles K w).2.fs ["out", "d", "f"] = some x) ∧
      ∀ t, w''.fs ["out", "l"] ≠ some (.link t) := by
  intro K r keep w
  have hroot : w.Vacant r.root ["out"] :=
    ⟨fun _ => rfl, by decide +kernel, .inl (by decide), fun ns hns => by simp [w, World.ofDirs, hns]⟩
  have hok : (r.handleFiles K w).1 = .ok () := by decide +kernel
  obtain ⟨w'', hrun, hkept, hlinks⟩ := ArchiveReader.filtered_restricts (by decide) (by decide) hroot keep
    (Act.run_of_ok hok)
  obtain ⟨x, _, hx, hx'⟩ := hkept (emptyFile [.normal "d", .normal "f"]) (by decide) rfl
  refine ⟨w'', hrun, ⟨x, hx', hx⟩, fun t ht => ?_⟩
  rcases hlinks _ _ ht (by simp) with hold | ⟨f, hf, hkeep, _, hloc⟩
  · simp [w, World.ofDirs] at hold
  · revert f
    decide

/-- The same name twice, with and without a dot. -/
def twinIndex : Index where
  files := [emptyFile [.normal "a"], { emptyFile [.curDir, .normal "a"] with permissions := 0o600 }]
  block := []
  totalStreamSize := 0

/-- **`a` and `./a`** are different safe paths, neither above the other. The full extraction leaves the file of the
second, the one that keeps the first only leaves a file of another mode. -/
theorem dotted_twin :
    let K := Crates.tabled [Header.stored 512] [twinIndex]
    let r := blocklessReader twinIndex
    let keep : FileEntry → Bool := fun f => f.path = [.normal "a"]
    let w := World.ofDirs [[], ["out"]]
    ArchiveReader.new K r.reader [] r.root Limits.default ⟨none, none⟩ false = .ok r ∧
      (r.index.files.map FileEntry.path).Nodup ∧ (∀ f ∈ r.index.files, isSafePath f.path = true) ∧
      (∀ f ∈ r.index.files, ∀ g ∈ r.index.files, f.path <+: g.path → f.path = g.path) ∧
      (r.handleFiles K w).1 = .ok () ∧ ((r.filtered keep).handleFiles K w).1 = .ok () ∧
      (r.handleFiles K w).2.fs ["out", "a"] = some (.file [] 0o600 0) ∧
      ((r.filtered keep).handleFiles K w).2.fs ["out", "a"] = some (.file [] 0o644 0) := by
  decide +kernel

end Cryo
