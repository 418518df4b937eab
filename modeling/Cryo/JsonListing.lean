import Cryo.Lib.Json
import Cryo.Listing

/-!
# The listing as JSON

What `print_json` of `list.rs` prints is assembled line by line. Here it is read back: the lines are one JSON value, an
object with one object for each entry, and a string that `js` writes is that string.

* `character_escape`, `derives_js`: the escapes of `js`.
* `derives_entry`, `wp_printJsonEntries`: the object of an entry, and the commas between them.
* `printJson_faithful`: what is printed is one value, and which one.
-/

namespace Cryo

open Json Posix

/-! ## Strings -/

/-- The escapes of control characters. -/
theorem hexDigits_padded : ∀ n < 32, (match List.replicate (4 - (Nat.toDigits 16 n).length) '0' ++ Nat.toDigits 16 n with
    | [a, b, c, d] => hexDigits a b c d
    | _ => none) = some n := by
  decide

theorem character_escape (c : Char) : Character (escape c) c := by
  unfold escape
  split_ifs with hquote hback hn hr ht hlow
  · exact .short (by rw [hquote]; rfl)
  · exact .short (by rw [hback]; rfl)
  · exact .short (by rw [hn]; rfl)
  · exact .short (by rw [hr]; rfl)
  · exact .short (by rw [ht]; rfl)
  · have hdigits := hexDigits_padded c.toNat hlow
    dsimp only
    rw [List.append_assoc]
    split at hdigits
    · next a b d e heq =>
      rw [heq]
      have h := Character.unicode hdigits (.inl (Nat.lt_trans hlow (by decide)))
      rwa [Char.ofNat_toNat] at h
    · cases hdigits
  · exact .unescaped ⟨Nat.not_lt.1 hlow, hquote, hback⟩

theorem derives_js (s : String) : Derives .value (js s).toList (.string s) :=
  (Derives.encoded character_escape s).cast (by simp [js])

/-! ## Entries -/

/-- An object that tells of an entry its type, path, modification time and target, and the size that `size` takes for
its size. -/
def Describes (display : Path → String) (size : FileEntry → Nat) (entry : FileEntry) (v : Value) : Prop :=
  ∃ ms, v = .object ms ∧ (ms.map Prod.fst).Nodup ∧
    ms.lookup "type" = some (.string (typeLabel entry.ftype)) ∧
    ms.lookup "path" = some (.string (display entry.path)) ∧
    ms.lookup "size" = some (.number (size entry)) ∧
    ms.lookup "modified" = some (.number entry.timestamp) ∧
    ms.lookup "target" = entry.symlinkTarget.map fun target => .string (display target)

variable {setup : ListSetup} {structs : FileStructs} {archivePath : String} {out : List String}

/-- A member that is a string, as `js` writes it. -/
def stringMember (name s : String) : String × List Char × Value := (name, (js s).toList, .string s)

/-- A member that is a number. -/
def natMember (name : String) (n : Nat) : String × List Char × Value := (name, (toString n).toList, .number n)

theorem written_stringMember {name : String} (h : ∀ c ∈ name.toList, Unescaped c) (s : String) :
    Written (stringMember name s) := by
  dsimp only [Written, stringMember]
  exact ⟨h, derives_js s⟩

theorem written_natMember {name : String} (h : ∀ c ∈ name.toList, Unescaped c) (n : Nat) :
    Written (natMember name n) := ⟨h, Derives.nat n⟩

/-- The members of the object of an entry. -/
def entryMembers (display : Path → String) (entry : FileEntry) (sizes : Nat × Nat × Nat) :
    List (String × List Char × Value) :=
  [stringMember "type" (typeLabel entry.ftype), stringMember "path" (display entry.path),
    stringMember "permissions" (formatPermissions entry.permissions), natMember "size" sizes.1,
    natMember "compressed" sizes.2.1, natMember "ratio" sizes.2.2, natMember "modified" entry.timestamp]
  ++ (entry.symlinkTarget.map fun target => stringMember "target" (display target)).toList

/-- Members between their braces, each on a line of its own. -/
def objectText (indent : List Char) (items : List (String × List Char × Value)) : List Char :=
  '\x7b' :: ([','].intercalate (items.map fun m => ('\n' :: (indent ++ [' ', ' '])) ++ memberText m) ++ '\n' :: indent
    ++ ['\x7d'])

theorem derives_object {indent : List Char} (hindent : Blank indent) {items : List (String × List Char × Value)}
    (hne : items ≠ []) (hitems : ∀ m ∈ items, Written m) :
    Derives .value (objectText indent items) (.object (items.map fun m => (m.1, m.2.2))) := by
  have hw : Blank ('\n' :: (indent ++ [' ', ' '])) := by
    intro c hc
    simp only [List.mem_cons, List.mem_append, List.not_mem_nil, or_false] at hc
    rcases hc with rfl | hc | rfl | rfl
    · rfl
    · exact hindent c hc
    · rfl
    · rfl
  have hw' : Blank ('\n' :: indent) := by
    intro c hc
    rcases List.mem_cons.1 hc with rfl | hc
    · rfl
    · exact hindent c hc
  exact (Derives.object (Derives.membersOf hw hw' hne hitems)).cast rfl

theorem unescaped_of_all {ks : List String}
    (h : (ks.all fun k => k.toList.all fun c => decide (Unescaped c)) = true) :
    ∀ k ∈ ks, ∀ c ∈ k.toList, Unescaped c := by
  simpa only [List.all_eq_true, decide_eq_true_eq] using h

theorem derives_entry (display : Path → String) (entry : FileEntry) (sizes : Nat × Nat × Nat) :
    Derives .value (objectText [' ', ' ', ' ', ' '] (entryMembers display entry sizes))
      (.object ((entryMembers display entry sizes).map fun m => (m.1, m.2.2))) := by
  have hkeys : ∀ k ∈ ["type", "path", "permissions", "size", "compressed", "ratio", "modified", "target"],
      ∀ c ∈ k.toList, Unescaped c := unescaped_of_all (by decide)
  refine derives_object (by simp [Blank, isBlank]) (by simp [entryMembers]) fun m hm => ?_
  simp only [entryMembers, List.cons_append, List.nil_append, List.mem_cons] at hm
  rcases hm with rfl | rfl | rfl | rfl | rfl | rfl | rfl | hm
  · exact written_stringMember (hkeys _ (by simp)) _
  · exact written_stringMember (hkeys _ (by simp)) _
  · exact written_stringMember (hkeys _ (by simp)) _
  · exact written_natMember (hkeys _ (by simp)) _
  · exact written_natMember (hkeys _ (by simp)) _
  · exact written_natMember (hkeys _ (by simp)) _
  · exact written_natMember (hkeys _ (by simp)) _
  · obtain ⟨target, -, rfl⟩ := Option.map_eq_some_iff.1 (Option.mem_toList.1 hm)
    exact written_stringMember (hkeys _ (by simp)) _

theorem describes_entry (display : Path → String) (entry : FileEntry) {sizes : Nat × Nat × Nat}
    (hsize : sizes.1 = entry.shownSize) : Describes display FileEntry.shownSize entry
      (.object ((entryMembers display entry sizes).map fun m => (m.1, m.2.2))) := by
  refine ⟨_, rfl, ?_⟩
  unfold entryMembers
  cases entry.symlinkTarget <;> simp [List.lookup_cons, stringMember, natMember, hsize]

/-! ## Printing -/

set_option maxRecDepth 2000 in
/-- **One entry**: its object on lines of its own, and what comes after the brace. -/
theorem wp_printJsonEntry (index : Index) (trailing : String) (entry : FileEntry) :
    Act.wp (printJsonEntry setup index trailing entry) (fun _ out' => ∃ t v, Derives .value t v ∧
      Describes setup.display FileEntry.shownSize entry v ∧
      outputText out' = outputText out ++ ([' ', ' ', ' ', ' '] ++ t ++ trailing.toList ++ ['\n']))
      (fun _ _ => True) out := by
  unfold printJsonEntry
  rw [Act.wp_bind]
  refine Act.wp_mono (wp_plainSizes index entry) ?_ (fun _ _ _ => trivial)
  rintro sizes out' ⟨rfl, hsize⟩
  simp only [Act.wp_bind, wp_println]
  refine ⟨_, _, derives_entry setup.display entry sizes, describes_entry setup.display entry hsize, ?_⟩
  simp only [outputText_append]
  unfold entryMembers
  cases entry.symlinkTarget <;>
    simp [objectText, memberText, stringMember, natMember, js, List.intercalate]

/-- Objects of an array, each on lines of its own, with a comma behind all but the last. -/
def entriesText : List (List Char) → List Char
  | [] => []
  | [t] => [' ', ' ', ' ', ' '] ++ t ++ ['\n']
  | t :: t' :: ts => [' ', ' ', ' ', ' '] ++ t ++ [',', '\n'] ++ entriesText (t' :: ts)

theorem entriesText_eq : ∀ {ts : List (List Char)}, ts ≠ [] →
    '\n' :: entriesText ts = [','].intercalate (ts.map fun t => ['\n', ' ', ' ', ' ', ' '] ++ t) ++ ['\n']
  | [], h => absurd rfl h
  | [t], _ => by simp [entriesText]
  | t :: t' :: ts, _ => by
    have hne : t' :: ts ≠ [] := by simp
    have hrest := entriesText_eq hne
    have hcons : '\n' :: entriesText (t :: t' :: ts)
        = ['\n', ' ', ' ', ' ', ' '] ++ t ++ ',' :: '\n' :: entriesText (t' :: ts) := by simp [entriesText]
    rw [hcons, hrest]
    simp [List.intercalate]

/-- **The entries**, by the number of the first: it is compared with the number of the last one of all. -/
theorem wp_printJsonEntries (index : Index) (last : Nat) : ∀ {entries : List FileEntry} {i : Nat} {out : List String},
    i + (entries.length - 1) = last →
    Act.wp (printJsonEntries setup index last i entries) (fun _ out' => ∃ items : List (List Char × Value),
      outputText out' = outputText out ++ entriesText (items.map Prod.fst) ∧
      List.Forall₂ (fun entry item => Derives .value item.1 item.2 ∧
        Describes setup.display FileEntry.shownSize entry item.2) entries items) (fun _ _ => True) out
  | [], i, out, _ => ⟨[], by simp [entriesText], .nil⟩
  | entry :: entries, i, out, hlast => by
    unfold printJsonEntries
    rw [Act.wp_bind]
    refine Act.wp_mono (wp_printJsonEntry index _ entry) ?_ (fun _ _ _ => trivial)
    rintro _ out₁ ⟨t, v, hentry, hdescribes, hout₁⟩
    cases entries with
    | nil =>
      refine ⟨[(t, v)], ?_, .cons ⟨hentry, hdescribes⟩ .nil⟩
      have hi : ¬ i < last := by
        rw [← hlast]
        exact Nat.lt_irrefl i
      rw [hout₁, if_neg hi]
      simp [entriesText]
    | cons entry' entries =>
      rw [List.length_cons, List.length_cons] at hlast
      have hi : i < last := by omega
      refine Act.wp_mono (wp_printJsonEntries index last (i := i + 1) ?_) ?_ (fun _ _ _ => trivial)
      · rw [List.length_cons]
        omega
      · rintro _ out₂ ⟨items, hout₂, hitems⟩
        refine ⟨(t, v) :: items, ?_, .cons ⟨hentry, hdescribes⟩ hitems⟩
        cases hitems with
        | cons _ _ =>
          rw [hout₂, hout₁, if_pos hi]
          simp [entriesText]

/-! ## The whole listing -/

/-- The array of the entries. -/
def filesText (ts : List (List Char)) : List Char := '[' :: ('\n' :: (entriesText ts ++ [' ', ' ']) ++ [']'])

theorem derives_files {items : List (List Char × Value)} (h : ∀ item ∈ items, Derives .value item.1 item.2) :
    Derives .value (filesText (items.map Prod.fst)) (.array (items.map Prod.snd)) := by
  have hindent : Blank ['\n', ' ', ' ', ' ', ' '] := by simp [Blank, isBlank]
  have hend : Blank ['\n', ' ', ' '] := by simp [Blank, isBlank]
  by_cases hne : items = []
  · subst hne
    exact (Derives.emptyArray hend).cast (by simp [filesText, entriesText])
  · refine (Derives.array (Derives.elementsOf hindent hend hne h)).cast ?_
    have hne' : items.map Prod.fst ≠ [] := by simpa using hne
    have htext := entriesText_eq hne'
    rw [List.map_map] at htext
    have hjoin : '\n' :: (entriesText (items.map Prod.fst) ++ [' ', ' '])
        = [','].intercalate (items.map fun item => ['\n', ' ', ' ', ' ', ' '] ++ item.1) ++ ['\n', ' ', ' '] := by
      rw [← List.cons_append, htext, List.append_assoc]
      rfl
    rw [filesText, hjoin]

/-- The members of the whole object. -/
def listingMembers (structs : FileStructs) (archivePath : String) (totalCompressed : Nat)
    (items : List (List Char × Value)) : List (String × List Char × Value) :=
  [stringMember "archive" archivePath, natMember "version" structs.header.version,
    stringMember "encryption" (encryptionLabel structs.header.encryption),
    stringMember "compression" (algoName structs.header.compression),
    ("compression_level", (toString structs.header.compressionLevel).toList, .number structs.header.compressionLevel),
    natMember "block_size" structs.header.blockSize, natMember "total_uncompressed" structs.index.totalStreamSize,
    natMember "total_compressed" totalCompressed, ("files", filesText (items.map Prod.fst), .array (items.map Prod.snd))]

theorem derives_listing (structs : FileStructs) (archivePath : String) (totalCompressed : Nat)
    {items : List (List Char × Value)} (h : ∀ item ∈ items, Derives .value item.1 item.2) :
    Derives .value (objectText [] (listingMembers structs archivePath totalCompressed items))
      (.object ((listingMembers structs archivePath totalCompressed items).map fun m => (m.1, m.2.2))) := by
  have hkeys : ∀ k ∈ ["archive", "version", "encryption", "compression", "compression_level", "block_size",
      "total_uncompressed", "total_compressed", "files"], ∀ c ∈ k.toList, Unescaped c := unescaped_of_all (by decide)
  refine derives_object (by simp [Blank]) (by simp [listingMembers]) fun m hm => ?_
  simp only [listingMembers, List.mem_cons, List.not_mem_nil, or_false] at hm
  rcases hm with rfl | rfl | rfl | rfl | rfl | rfl | rfl | rfl | rfl
  · exact written_stringMember (hkeys _ (by simp)) _
  · exact written_natMember (hkeys _ (by simp)) _
  · exact written_stringMember (hkeys _ (by simp)) _
  · exact written_stringMember (hkeys _ (by simp)) _
  · exact ⟨hkeys _ (by simp), Derives.int _⟩
  · exact written_natMember (hkeys _ (by simp)) _
  · exact written_natMember (hkeys _ (by simp)) _
  · exact written_natMember (hkeys _ (by simp)) _
  · exact ⟨hkeys _ (by simp), derives_files h⟩

/-- A listing that is one JSON value: an object whose array of files has an object for each entry, in the order of the
entries. -/
def JsonListing (display : Path → String) (size : FileEntry → Nat) (files : List FileEntry) (t : List Char) : Prop :=
  ∃ ms objects, Text t (.object ms) ∧ (∀ v, Text t v → v = .object ms) ∧ (ms.map Prod.fst).Nodup ∧
    ms.lookup "files" = some (.array objects) ∧ List.Forall₂ (Describes display size) files objects

set_option maxRecDepth 2000 in
theorem wp_printJson (setup : ListSetup) (structs : FileStructs) (archivePath : String) :
    Act.wp (printJson setup structs archivePath)
      (fun _ out => JsonListing setup.display FileEntry.shownSize structs.index.files (outputText out))
      (fun _ _ => True) [] := by
  unfold printJson
  rw [Act.wp_bind]
  cases hc : structs.index.totalCompressedSize with
  | error o => trivial
  | ok n =>
    rw [arith_ok rfl]
    simp only [Act.wp_pure, Act.wp_bind, wp_println]
    refine Act.wp_mono (wp_printJsonEntries structs.index _ (Nat.zero_add _)) ?_ (fun _ _ _ => trivial)
    rintro _ out ⟨items, hout, hitems⟩
    have hvalues : ∀ item ∈ items, Derives .value item.1 item.2 := by
      intro item hitem
      obtain ⟨entry, -, h⟩ := hitems.flip.exists_of_mem hitem
      exact h.1
    have hderives := derives_listing structs archivePath n hvalues
    have htext : Text (outputText (out ++ ["  ]"] ++ ["\x7d"]))
        (.object ((listingMembers structs archivePath n items).map fun m => (m.1, m.2.2))) := by
      refine ⟨[], _, ['\n'], by simp [Blank], hderives, by simp [Blank, isBlank], ?_⟩
      simp only [outputText_append, hout]
      simp [listingMembers, objectText, memberText, stringMember, natMember, js, filesText, List.intercalate, outputText]
    refine ⟨_, items.map Prod.snd, htext, fun v hv => hv.unique htext, ?_, ?_, ?_⟩
    · simp [listingMembers, stringMember, natMember]
    · simp [listingMembers, stringMember, natMember, List.lookup_cons]
    · exact List.forall₂_map_right_iff.2 (hitems.imp fun _ _ h => h.2)

/-- **The listing as JSON**: it is printed when the sizes of the blocks add up, and what is printed is one JSON value
that tells of every entry; a string that `js` writes is that string. -/
theorem printJson_faithful (setup : ListSetup) (structs : FileStructs) (archivePath : String) :
    (structs.index.Typed → ∃ out, printJson setup structs archivePath [] = (.ok (), out)) ∧
    (∀ out, printJson setup structs archivePath [] = (.ok (), out) →
      JsonListing setup.display FileEntry.shownSize structs.index.files (outputText out)) ∧
    ∀ s, Text (js s).toList (.string s) ∧ ∀ v, Text (js s).toList v → v = .string s := by
  refine ⟨fun hx => ?_, fun out hrun => (Act.of_wp (wp_printJson setup structs archivePath)).1 () hrun, fun s => ?_⟩
  · have hprints : Prints (printJson setup structs archivePath) := prints_printJson hx
    obtain ⟨_, out, hrun, -⟩ := Act.exists_ok (hprints [])
    exact ⟨out, hrun⟩
  · have htext : Text (js s).toList (.string s) :=
      ⟨[], _, [], by simp [Blank], derives_js s, by simp [Blank], by simp⟩
    exact ⟨htext, fun v hv => hv.unique htext⟩

/-- A directory that is recorded with a size. -/
theorem printJson_dir_size :
    let d : FileEntry := ⟨[.normal "d"], .dir, 0, 5, 0, 0o755, none⟩
    let structs : FileStructs := ⟨Header.stored 2, ⟨[d], [], 0⟩, .none, ⟨4, 0, 0, false, Vector.replicate 12 0⟩⟩
    ∃ out, printJson .bare structs "a.cryo" [] = (.ok (), out) ∧
      ¬ JsonListing ListSetup.bare.display FileEntry.size structs.index.files (outputText out) := by
  intro d structs
  have htyped : structs.index.Typed := typed_of_entries (by decide)
  have hprints : Prints (printJson .bare structs "a.cryo") := prints_printJson htyped
  obtain ⟨_, out, hrun, -⟩ := Act.exists_ok (hprints [])
  refine ⟨out, hrun, ?_⟩
  rintro ⟨ms, objects, htext, -, -, hfiles, hall⟩
  obtain ⟨ms', objects', -, hunique, -, hfiles', hall'⟩ := (Act.of_wp (wp_printJson .bare structs "a.cryo")).1 () hrun
  cases hunique _ htext
  cases hfiles.symm.trans hfiles'
  -- The one object would have two sizes.
  cases hall with
  | cons hd _ =>
    cases hall' with
    | cons hd' _ =>
      obtain ⟨fields, rfl, -, -, -, hsize, -⟩ := hd
      obtain ⟨fields', hfields, -, -, -, hsize', -⟩ := hd'
      cases hfields
      have heq : ((5 : Nat) : ℚ) = ((0 : Nat) : ℚ) := Value.number.inj (Option.some.inj (hsize.symm.trans hsize'))
      exact absurd (Nat.cast_injective heq) (by decide)

end Cryo
