import Cryo.Lib.Separated
import Cryo.Listing

/-!
# The listing as lines

`print_plain` of `list.rs` prints a line for each entry, with tabs between its fields, and writes the names as they
are. So it can be read back when no name has a tab or the end of a line in it, and tabs alone are enough to make two
listings alike: what a name without them forges is a line that has no fields.

* `wp_printPlain`: what is printed.
* `agree_of_lines`: listings of names without tabs are different when the entries are.
* `readable_iff`: when each entry is one line from which its fields can be read.
* `printPlain_unambiguous_iff`: both together, with the characters that names may have.
-/

namespace Cryo

open Posix Separated

variable {display : Path → String} {entry entry' : FileEntry} {files files' : List FileEntry}

/-! ## Lines -/

/-- The names in an entry, as they are printed. -/
def shownNames (display : Path → String) (entry : FileEntry) : List (List Char) :=
  (display entry.path).toList :: (entry.symlinkTarget.map fun target => (display target).toList).toList

/-- The numbers and labels before the names. -/
def shownFields (entry : FileEntry) (compressed ratio : Nat) : List (List Char) :=
  [(typeLabel entry.ftype).toList, (formatPermissions entry.permissions).toList, (toString entry.shownSize).toList,
    (toString compressed).toList, (toString ratio).toList, (toString entry.timestamp).toList]

theorem length_shownFields (entry : FileEntry) (compressed ratio : Nat) :
    (shownFields entry compressed ratio).length = 6 := rfl

/-- The line of an entry, for some compressed size and ratio. -/
def PlainLine (display : Path → String) (entry : FileEntry) (line : List Char) : Prop :=
  ∃ compressed ratio, line = ['\t'].intercalate (shownFields entry compressed ratio ++ shownNames display entry)

variable {setup : ListSetup} {structs structs' : FileStructs} {archivePath archivePath' : String}
  {out out' : List String}

theorem wp_printPlainEntry (index : Index) (entry : FileEntry) :
    Act.wp (printPlainEntry setup index entry) (fun _ out' => ∃ text, out' = out ++ [text] ∧
      PlainLine setup.display entry text.toList) (fun _ _ => True) out := by
  unfold printPlainEntry
  rw [Act.wp_bind]
  refine Act.wp_mono (wp_plainSizes index entry) ?_ (fun _ _ _ => trivial)
  rintro sizes out' ⟨rfl, hsize⟩
  rw [wp_println]
  refine ⟨_, rfl, sizes.2.1, sizes.2.2, ?_⟩
  rw [String.toList_intercalate]
  cases htarget : entry.symlinkTarget <;> simp [shownFields, shownNames, hsize, htarget]

theorem wp_printPlainEntries (index : Index) : ∀ (entries : List FileEntry) (out : List String),
    Act.wp (entries.forM (printPlainEntry setup index)) (fun _ out' => ∃ texts, out' = out ++ texts ∧
      List.Forall₂ (fun entry text => PlainLine setup.display entry text.toList) entries texts) (fun _ _ => True) out
  | [], out => ⟨[], by simp, .nil⟩
  | entry :: entries, out => by
    show Act.wp (printPlainEntry setup index entry >>= fun _ => entries.forM (printPlainEntry setup index)) _ _ out
    rw [Act.wp_bind]
    refine Act.wp_mono (wp_printPlainEntry index entry) ?_ (fun _ _ _ => trivial)
    rintro _ out₁ ⟨text, rfl, hline⟩
    refine Act.wp_mono (wp_printPlainEntries index entries _) ?_ (fun _ _ _ => trivial)
    rintro _ out₂ ⟨texts, rfl, hlines⟩
    exact ⟨text :: texts, by simp, .cons hline hlines⟩

theorem wp_printPlain (setup : ListSetup) (structs : FileStructs) (archivePath : String) :
    Act.wp (printPlain setup structs archivePath) (fun _ out => ∃ header texts, out = header :: texts ∧
      List.Forall₂ (fun entry text => PlainLine setup.display entry text.toList) structs.index.files texts)
      (fun _ _ => True) [] := by
  unfold printPlain
  rw [Act.wp_bind]
  cases structs.index.totalCompressedSize with
  | error o => trivial
  | ok n =>
    rw [arith_ok rfl]
    simp only [Act.wp_pure, Act.wp_bind, wp_println]
    refine Act.wp_mono (wp_printPlainEntries structs.index structs.index.files _) ?_ (fun _ _ _ => trivial)
    rintro _ out ⟨texts, rfl, hlines⟩
    exact ⟨_, texts, rfl, hlines⟩

theorem outputText_eq (texts : List String) : outputText texts = lines '\n' (texts.map String.toList) := by
  simp [outputText, lines, List.flatMap_map]

/-! ## The characters of the fields -/

theorem shownFields_clean (entry : FileEntry) (compressed ratio : Nat) :
    ∀ field ∈ shownFields entry compressed ratio, '\t' ∉ field ∧ '\n' ∉ field := by
  have hnat : ∀ n : Nat, '\t' ∉ (toString n).toList ∧ '\n' ∉ (toString n).toList := by
    intro n
    have hdigit : ∀ c ∈ (toString n).toList, c.isDigit := by
      intro c hc
      rw [Nat.toString_eq_ofList_toDigits, String.toList_ofList] at hc
      exact Nat.isDigit_of_mem_toDigits (by decide) (by decide) hc
    exact ⟨fun h => absurd (hdigit _ h) (by decide), fun h => absurd (hdigit _ h) (by decide)⟩
  have hlabel : ∀ t : FileType, '\t' ∉ (typeLabel t).toList ∧ '\n' ∉ (typeLabel t).toList := by
    intro t
    cases t <;> decide
  have hperms : ∀ c ∈ (formatPermissions entry.permissions).toList, c ∈ ['r', 'w', 'x', '-'] := by
    intro c hc
    have hletter : ∀ mask, ∀ d ∈ ['r', 'w', 'x'], permission entry.permissions mask d ∈ ['r', 'w', 'x', '-'] := by
      intro mask d hd
      unfold permission
      split_ifs
      · exact List.mem_append_left ['-'] hd
      · decide
    simp only [formatPermissions, String.toList_ofList, List.mem_cons, List.not_mem_nil, or_false] at hc
    rcases hc with rfl | rfl | rfl | rfl | rfl | rfl | rfl | rfl | rfl <;> exact hletter _ _ (by decide)
  intro field hfield
  simp only [shownFields, List.mem_cons, List.not_mem_nil, or_false] at hfield
  rcases hfield with rfl | rfl | rfl | rfl | rfl | rfl
  · exact hlabel _
  · exact ⟨fun h => absurd (hperms _ h) (by decide), fun h => absurd (hperms _ h) (by decide)⟩
  all_goals exact hnat _

/-! ## Reading a line back -/

/-- Names without separators. -/
def Clean (display : Path → String) (entry : FileEntry) : Prop :=
  ∀ name ∈ shownNames display entry, '\t' ∉ name ∧ '\n' ∉ name

/-- The lines of a text are the entries, and the fields of each are those of the entry. -/
def Readable (display : Path → String) (files : List FileEntry) (t : List Char) : Prop :=
  ∃ ls, t.splitOn '\n' = ls ++ [[]] ∧ List.Forall₂ (fun entry line => ∃ compressed ratio,
    line.splitOn '\t' = shownFields entry compressed ratio ++ shownNames display entry) files ls

theorem ne_nil_of_fields (display : Path → String) (entry : FileEntry) (compressed ratio : Nat) :
    shownFields entry compressed ratio ++ shownNames display entry ≠ [] := by simp [shownFields]

/-- A line whose names are clean is taken apart into its fields. -/
theorem splitOn_of_clean {line : List Char} (hline : PlainLine display entry line) (hclean : Clean display entry) :
    '\n' ∉ line ∧ ∃ compressed ratio,
      line.splitOn '\t' = shownFields entry compressed ratio ++ shownNames display entry := by
  obtain ⟨compressed, ratio, rfl⟩ := hline
  have hparts : ∀ part ∈ shownFields entry compressed ratio ++ shownNames display entry, '\t' ∉ part ∧ '\n' ∉ part := by
    intro part hpart
    rcases List.mem_append.1 hpart with hpart | hpart
    · exact shownFields_clean entry compressed ratio part hpart
    · exact hclean part hpart
  refine ⟨fun hmem => ?_, compressed, ratio, ?_⟩
  · rcases mem_intercalate hmem with htab | ⟨part, hpart, hmem⟩
    · exact absurd htab (by decide)
    · exact (hparts part hpart).2 hmem
  · exact List.splitOn_intercalate _ (fun part hpart => (hparts part hpart).1)
      (ne_nil_of_fields display entry compressed ratio)

/-- A line that is taken apart into as many fields as it has names has clean ones. -/
theorem clean_of_splitOn {line : List Char} (hline : PlainLine display entry line) (hnewline : '\n' ∉ line)
    (hfields : ∃ compressed ratio, line.splitOn '\t' = shownFields entry compressed ratio ++ shownNames display entry) :
    Clean display entry := by
  obtain ⟨compressed, ratio, rfl⟩ := hline
  obtain ⟨compressed', ratio', hsplit⟩ := hfields
  have hlength := congrArg List.length hsplit
  have hcount := count_intercalate (c := '\t') (ne_nil_of_fields display entry compressed ratio)
  rw [length_splitOn, hcount] at hlength
  have htabs : ∀ part ∈ shownFields entry compressed ratio ++ shownNames display entry, '\t' ∉ part :=
    not_mem_of_sum_count (by
      simp only [List.length_append, length_shownFields] at hlength ⊢
      omega)
  intro name hname
  have hmem := List.mem_append_right (shownFields entry compressed ratio) hname
  exact ⟨htabs name hmem, fun h => hnewline (mem_intercalate_of_mem hmem h)⟩

/-- **Each entry is one line** from which its fields can be read exactly when no name has a tab or the end of a line in
it. -/
theorem readable_iff {ls : List (List Char)} (hlines : List.Forall₂ (PlainLine display) files ls) :
    Readable display files (lines '\n' ls) ↔ ∀ entry ∈ files, Clean display entry := by
  constructor
  · rintro ⟨ls', hsplit, hfields⟩
    -- The text has as many ends of lines as entries, so none of them is in a line.
    have hlength := congrArg List.length hsplit
    rw [length_splitOn, count_lines, List.length_append, ← hfields.length_eq, ← hlines.length_eq] at hlength
    have hnewline : ∀ line ∈ ls, '\n' ∉ line := not_mem_of_sum_count (by
      rw [List.length_singleton] at hlength
      omega)
    rw [splitOn_lines hnewline] at hsplit
    obtain rfl : ls = ls' := List.append_cancel_right hsplit
    intro entry hentry
    obtain ⟨line, hline, hboth⟩ :=
      (List.Forall₂.mp (fun _ _ h h' => And.intro h h') hlines hfields).exists_of_mem hentry
    exact clean_of_splitOn hboth.1 (hnewline line hline) hboth.2
  · intro hclean
    have hboth : List.Forall₂ (fun entry line => '\n' ∉ line ∧ ∃ compressed ratio,
        line.splitOn '\t' = shownFields entry compressed ratio ++ shownNames display entry) files ls := by
      induction hlines with
      | nil => exact .nil
      | cons hline _ ih =>
        exact .cons (splitOn_of_clean hline (hclean _ List.mem_cons_self))
          (ih fun entry hentry => hclean entry (List.mem_cons_of_mem _ hentry))
    refine ⟨ls, splitOn_lines fun line hline => ?_, hboth.imp fun _ _ h => h.2⟩
    obtain ⟨entry, -, h⟩ := hboth.flip.exists_of_mem hline
    exact h.1

/-! ## Listings that are alike -/

/-- What a listing shows of two entries is the same. -/
structure ShownAlike (display : Path → String) (entry entry' : FileEntry) : Prop where
  label : typeLabel entry.ftype = typeLabel entry'.ftype
  permissions : formatPermissions entry.permissions = formatPermissions entry'.permissions
  size : entry.shownSize = entry'.shownSize
  timestamp : entry.timestamp = entry'.timestamp
  path : display entry.path = display entry'.path
  target : entry.symlinkTarget.map display = entry'.symlinkTarget.map display

/-- How a listing goes on after an entry: it ends, or there is a line with two fields that are not names. -/
def Continues (t : List Char) : Prop :=
  t = [] ∨ ∃ label perms rest, t = label ++ '\t' :: (perms ++ '\t' :: rest) ∧ ('\t' ∉ label ∧ '\n' ∉ label) ∧
    '\t' ∉ perms ∧ '\n' ∉ perms

theorem continues_lines : ∀ {files : List FileEntry} {ls : List (List Char)},
    List.Forall₂ (PlainLine display) files ls → Continues (lines '\n' ls)
  | [], [], .nil => .inl rfl
  | entry :: _, _ :: ls, .cons ⟨compressed, ratio, rfl⟩ _ => by
    have hclean := shownFields_clean entry compressed ratio
    simp only [shownFields, List.forall_mem_cons] at hclean
    refine .inr ⟨(typeLabel entry.ftype).toList, (formatPermissions entry.permissions).toList,
      lines '\t' ((shownFields entry compressed ratio).drop 2)
        ++ (['\t'].intercalate (shownNames display entry) ++ '\n' :: lines '\n' ls), ?_, hclean.1, hclean.2.1⟩
    rw [lines_cons, intercalate_append (by simp [shownNames])]
    simp [shownFields]

section

variable {a a' p t r r' : List Char}

/-- The last name of an entry, up to the end of its line. -/
theorem name_inj (ha : '\t' ∉ a) (ha' : '\t' ∉ a') (hr : Continues r) (hr' : Continues r')
    (h : a ++ '\n' :: r = a' ++ '\n' :: r') : a = a' ∧ r = r' := by
  rcases hr with rfl | ⟨label, perms, rest, rfl, hlabel, -⟩
  · rcases hr' with rfl | ⟨label', perms', rest', rfl, -, -⟩
    · exact ⟨List.append_cancel_right h, rfl⟩
    · have htab : '\t' ∈ a ++ ['\n'] := by
        rw [h]
        simp
      simp [ha] at htab
  · rcases hr' with rfl | ⟨label', perms', rest', rfl, hlabel', -⟩
    · have htab : '\t' ∈ a' ++ ['\n'] := by
        rw [← h]
        simp
      simp [ha'] at htab
    · have hcut : (a ++ '\n' :: label) ++ '\t' :: (perms ++ '\t' :: rest)
          = (a' ++ '\n' :: label') ++ '\t' :: (perms' ++ '\t' :: rest') := by simpa using h
      obtain ⟨hname, hrest⟩ := cut_first (by simp [ha, hlabel.1]) (by simp [ha', hlabel'.1]) hcut
      obtain ⟨rfl, rfl⟩ := cut_last hlabel.2 hlabel'.2 hname
      exact ⟨rfl, by rw [hrest]⟩

/-- A name at the end of a line is not one before a target: the line after it has a field before its end. -/
theorem name_ne (ha : '\t' ∉ a) (hp : '\t' ∉ p) (ht : '\t' ∉ t) (hr : Continues r) :
    a ++ '\n' :: r ≠ p ++ '\t' :: (t ++ '\n' :: r') := by
  intro h
  rcases hr with rfl | ⟨label, perms, rest, rfl, hlabel, hperms⟩
  · have htab : '\t' ∈ a ++ ['\n'] := by
      rw [h]
      simp
    simp [ha] at htab
  · have hcut : (a ++ '\n' :: label) ++ '\t' :: (perms ++ '\t' :: rest) = p ++ '\t' :: (t ++ '\n' :: r') := by
      simpa using h
    obtain ⟨-, hrest⟩ := cut_first (by simp [ha, hlabel.1]) hp hcut
    exact cut_ne (by decide) ht hperms.2 hrest

end

/-- The names of an entry, up to the end of its line. -/
theorem names_inj (h : ∀ name ∈ shownNames display entry, '\t' ∉ name)
    (h' : ∀ name ∈ shownNames display entry', '\t' ∉ name) {r r' : List Char} (hr : Continues r) (hr' : Continues r')
    (heq : ['\t'].intercalate (shownNames display entry) ++ '\n' :: r
      = ['\t'].intercalate (shownNames display entry') ++ '\n' :: r') :
    display entry.path = display entry'.path ∧
      entry.symlinkTarget.map display = entry'.symlinkTarget.map display ∧ r = r' := by
  unfold shownNames at h h' heq
  cases htarget : entry.symlinkTarget with
  | none =>
    cases htarget' : entry'.symlinkTarget with
    | none =>
      simp only [htarget, htarget', Option.map_none, Option.toList_none, List.forall_mem_singleton,
        List.intercalate_singleton] at h h' heq
      obtain ⟨hpath, hrest⟩ := name_inj h h' hr hr' heq
      exact ⟨String.toList_inj.1 hpath, rfl, hrest⟩
    | some target' =>
      simp only [htarget, htarget', Option.map_none, Option.map_some, Option.toList_none, Option.toList_some,
        List.forall_mem_cons, List.intercalate_singleton, List.intercalate_cons_cons, List.append_assoc,
        List.singleton_append] at h h' heq
      exact absurd heq (name_ne h.1 h'.1 h'.2.1 hr)
  | some target =>
    cases htarget' : entry'.symlinkTarget with
    | none =>
      simp only [htarget, htarget', Option.map_none, Option.map_some, Option.toList_none, Option.toList_some,
        List.forall_mem_cons, List.intercalate_singleton, List.intercalate_cons_cons, List.append_assoc,
        List.singleton_append] at h h' heq
      exact absurd heq.symm (name_ne h'.1 h.1 h.2.1 hr')
    | some target' =>
      simp only [htarget, htarget', Option.map_some, Option.toList_some, List.forall_mem_cons,
        List.intercalate_singleton, List.intercalate_cons_cons, List.append_assoc, List.singleton_append] at h h' heq
      obtain ⟨hpath, hrest⟩ := cut_first h.1 h'.1 heq
      obtain ⟨hname, hr⟩ := name_inj h.2.1 h'.2.1 hr hr' hrest
      exact ⟨String.toList_inj.1 hpath, by rw [Option.map_some, Option.map_some, String.toList_inj.1 hname], hr⟩

theorem toString_nat_inj {m n : Nat} (h : (toString m).toList = (toString n).toList) : m = n := by
  rw [Nat.toString_eq_ofList_toDigits, Nat.toString_eq_ofList_toDigits, String.toList_ofList, String.toList_ofList] at h
  have hread := congrArg (fun ds => Nat.ofDigitChars 10 ds 0) h
  simpa only [Nat.ofDigitChars_ten_toDigits] using hread

/-- **Listings of names without tabs** are different when the entries are. -/
theorem agree_of_lines : ∀ {files files' : List FileEntry} {ls ls' : List (List Char)},
    List.Forall₂ (PlainLine display) files ls → List.Forall₂ (PlainLine display) files' ls' →
    (∀ entry ∈ files, ∀ name ∈ shownNames display entry, '\t' ∉ name) →
    (∀ entry ∈ files', ∀ name ∈ shownNames display entry, '\t' ∉ name) →
    lines '\n' ls = lines '\n' ls' → List.Forall₂ (ShownAlike display) files files'
  | [], [], [], [], .nil, .nil, _, _, _ => .nil
  | [], _ :: _, [], _ :: _, .nil, .cons _ _, _, _, h => by simp at h
  | _ :: _, [], _ :: _, [], .cons _ _, .nil, _, _, h => by simp at h
  | entry :: files, entry' :: files', _ :: _, _ :: _, .cons ⟨c, k, hline⟩ hls, .cons ⟨c', k', hline'⟩ hls', htab, htab',
      h => by
    subst hline hline'
    rw [lines_cons, lines_cons, intercalate_append (by simp [shownNames]), intercalate_append (by simp [shownNames]),
      List.append_assoc, List.append_assoc] at h
    have hlength : (shownFields entry c k).length = (shownFields entry' c' k').length := by
      rw [length_shownFields, length_shownFields]
    obtain ⟨hfields, hnames⟩ := cut_lines hlength (fun f hf => (shownFields_clean entry c k f hf).1)
      (fun f hf => (shownFields_clean entry' c' k' f hf).1) h
    obtain ⟨hpath, htarget, hrest⟩ := names_inj (htab entry List.mem_cons_self) (htab' entry' List.mem_cons_self)
      (continues_lines hls) (continues_lines hls') hnames
    refine .cons ?_ (agree_of_lines hls hls' (fun e he => htab e (List.mem_cons_of_mem entry he))
      (fun e he => htab' e (List.mem_cons_of_mem entry' he)) hrest)
    simp only [shownFields, List.cons.injEq, String.toList_inj, and_true] at hfields
    obtain ⟨hlabel, hperms, hsize, -, -, htime⟩ := hfields
    exact ⟨hlabel, hperms, toString_nat_inj (congrArg _ hsize), toString_nat_inj (congrArg _ htime), hpath, htarget⟩

/-! ## What is printed -/

/-- Names all of whose characters are allowed. -/
def Spelled (allowed : Char → Prop) (display : Path → String) (files : List FileEntry) : Prop :=
  ∀ entry ∈ files, ∀ name ∈ shownNames display entry, ∀ c ∈ name, allowed c

/-- The header is printed first, and then a line for each entry. -/
theorem printPlain_eq (hrun : printPlain setup structs archivePath [] = (.ok (), out)) :
    ∃ header ls, out.head? = some header ∧ outputText out = header.toList ++ '\n' :: lines '\n' ls ∧
      outputText out.tail = lines '\n' ls ∧ List.Forall₂ (PlainLine setup.display) structs.index.files ls := by
  obtain ⟨header, texts, rfl, hlines⟩ := (Act.of_wp (wp_printPlain setup structs archivePath)).1 () hrun
  refine ⟨header, texts.map String.toList, rfl, ?_, outputText_eq texts, List.forall₂_map_right_iff.2 hlines⟩
  rw [← outputText_eq]
  simp [outputText]

/-- An archive of one link. -/
def linkTo (name target : String) : FileStructs where
  header := Header.stored 2
  index := ⟨[⟨[.normal name], .symlink, 0, 0, 0, 0o777, some [.normal target]⟩], [], 0⟩
  cipher := .none
  footer := ⟨4, 0, 0, false, Vector.replicate 12 0⟩

/-- A name and a target that are alike with a tab between them. -/
theorem printPlain_linkTo {name target name' target' : String}
    (h : name.toList ++ '\t' :: target.toList = name'.toList ++ '\t' :: target'.toList) :
    printPlain .bare (linkTo name target) "a.cryo" = printPlain .bare (linkTo name' target') "a.cryo" := by
  -- Before the names, the lines are the same.
  have hline : ∀ name target : String, ∃ text, printPlainEntry .bare (linkTo name target).index
      ⟨[.normal name], .symlink, 0, 0, 0, 0o777, some [.normal target]⟩ = println text ∧
      text.toList = lines '\t' [['l', 'i', 'n', 'k'], (formatPermissions 0o777).toList, ['0'], ['0'], ['0'], ['0']]
        ++ (name.toList ++ '\t' :: target.toList) := by
    intro name target
    refine ⟨_, rfl, ?_⟩
    rw [String.toList_intercalate]
    simp [typeLabel, ListSetup.bare, Path.names]
  obtain ⟨text, hprint, htext⟩ := hline name target
  obtain ⟨text', hprint', htext'⟩ := hline name' target'
  rw [h, ← htext', String.toList_inj] at htext
  have hrun : ∀ name target : String, printPlain .bare (linkTo name target) "a.cryo"
      = printPlain .bare { linkTo "" "" with index := ⟨[], [], 0⟩ } "a.cryo" >>= fun _ =>
        printPlainEntry .bare (linkTo name target).index
          ⟨[.normal name], .symlink, 0, 0, 0, 0o777, some [.normal target]⟩ := fun _ _ => rfl
  rw [hrun, hrun, hprint, hprint', htext]

theorem linkTo_runs (name target : String) :
    ∃ out, printPlain .bare (linkTo name target) "a.cryo" [] = (.ok (), out) := by
  have htyped : (linkTo name target).index.Typed := typed_of_entries fun f hf => by
    obtain rfl := List.mem_singleton.1 hf
    exact ⟨Nat.two_pow_pos 64, Nat.two_pow_pos 64, Nat.two_pow_pos 64⟩
  have hprints : Prints (printPlain .bare (linkTo name target) "a.cryo") := prints_printPlain htyped
  obtain ⟨_, out, hrun, -⟩ := Act.exists_ok (hprints [])
  exact ⟨out, hrun⟩

/-- **When the listing as lines is unambiguous.** Each entry is one line from which its fields can be read exactly when
no name has a tab or the end of a line in it; and listings of names of certain characters are different when the
entries are exactly when the tab is none of these characters. -/
theorem printPlain_unambiguous_iff (allowed : Char → Prop) :
    (∀ setup structs archivePath out, printPlain setup structs archivePath [] = (.ok (), out) →
      (Readable setup.display structs.index.files (outputText out.tail) ↔
        ∀ entry ∈ structs.index.files, Clean setup.display entry)) ∧
    ((∀ setup structs structs' archivePath archivePath' out out',
        printPlain setup structs archivePath [] = (.ok (), out) →
        printPlain setup structs' archivePath' [] = (.ok (), out') → out.head? = out'.head? →
        Spelled allowed setup.display structs.index.files → Spelled allowed setup.display structs'.index.files →
        outputText out = outputText out' →
        List.Forall₂ (ShownAlike setup.display) structs.index.files structs'.index.files) ↔
      ¬ allowed '\t') := by
  refine ⟨fun setup structs archivePath out hrun => ?_, fun hinj htab => ?_, ?_⟩
  · obtain ⟨header, ls, -, -, htail, hlines⟩ := printPlain_eq hrun
    rw [htail]
    exact readable_iff hlines
  · -- A tab may as well be the end of the name as the start of the target.
    obtain ⟨out, hrun⟩ := linkTo_runs "\t" "\t\t"
    have halike : printPlain .bare (linkTo "\t" "\t\t") "a.cryo" = printPlain .bare (linkTo "\t\t" "\t") "a.cryo" :=
      printPlain_linkTo (by decide)
    have hrun' := hrun
    rw [halike] at hrun'
    have hspelled : ∀ name target : String, (∀ c ∈ name.toList, c = '\t') → (∀ c ∈ target.toList, c = '\t') →
        Spelled allowed ListSetup.bare.display (linkTo name target).index.files := by
      intro name target hname htarget entry hentry text htext c hc
      obtain rfl := List.mem_singleton.1 hentry
      rcases List.mem_pair.1 htext with rfl | rfl
      · rw [hname c (by simpa [ListSetup.bare, Path.names] using hc)]
        exact htab
      · rw [htarget c (by simpa [ListSetup.bare, Path.names] using hc)]
        exact htab
    have hagree := hinj .bare _ _ _ _ out out hrun hrun' rfl (hspelled _ _ (by simp) (by simp))
      (hspelled _ _ (by simp) (by simp)) rfl
    cases hagree with
    | cons h _ => exact absurd h.path (by decide)
  · intro htab setup structs structs' archivePath archivePath' out out' hrun hrun' hhead hspelled hspelled' htext
    obtain ⟨header, ls, hheader, hout, -, hlines⟩ := printPlain_eq hrun
    obtain ⟨header', ls', hheader', hout', -, hlines'⟩ := printPlain_eq hrun'
    obtain rfl : header = header' := Option.some.inj (hheader.symm.trans (hhead.trans hheader'))
    rw [hout, hout'] at htext
    have hrest := (List.cons.inj (List.append_cancel_left htext)).2
    refine agree_of_lines hlines hlines' ?_ ?_ hrest
    · exact fun entry hentry name hname hmem => htab (hspelled entry hentry name hname _ hmem)
    · exact fun entry hentry name hname hmem => htab (hspelled' entry hentry name hname _ hmem)

/-- A link `a<tab>b` to `c`, and a link `a` to `b<tab>c`. -/
theorem printPlain_ambiguous :
    ∃ out, printPlain .bare (linkTo "a\tb" "c") "a.cryo" [] = (.ok (), out) ∧
      printPlain .bare (linkTo "a" "b\tc") "a.cryo" [] = (.ok (), out) ∧
      ¬ List.Forall₂ (ShownAlike ListSetup.bare.display) (linkTo "a\tb" "c").index.files
        (linkTo "a" "b\tc").index.files ∧
      ¬ Readable ListSetup.bare.display (linkTo "a\tb" "c").index.files (outputText out.tail) := by
  obtain ⟨out, hrun⟩ := linkTo_runs "a\tb" "c"
  have halike : printPlain .bare (linkTo "a\tb" "c") "a.cryo" = printPlain .bare (linkTo "a" "b\tc") "a.cryo" :=
    printPlain_linkTo (by decide)
  have hrun' := hrun
  rw [halike] at hrun'
  refine ⟨out, hrun, hrun', fun hagree => ?_, fun hreadable => ?_⟩
  · cases hagree with
    | cons h _ => exact absurd h.path (by decide)
  · obtain ⟨header, ls, -, -, htail, hlines⟩ := printPlain_eq hrun
    rw [htail, readable_iff hlines] at hreadable
    have hclean := (hreadable _ List.mem_cons_self _ List.mem_cons_self).1
    exact hclean (by decide)

end Cryo
