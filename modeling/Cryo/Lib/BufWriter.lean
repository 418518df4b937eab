import Cryo.Lib.FsCalls

/-!
# Buffered writing

A `BufWriter` collects what is written to a file up to its capacity, and writes it out when more comes than has room;
data of at least the capacity goes to the file directly. A writer lives in a scope (`within`), at whose end, however it
is left, what is buffered is written out and errors are ignored; `intoInner` writes it out before and reports them.

`Holds file capacity d` says that the file and the buffer together hold `d`. Every call keeps it for what was written
so far (`wp_writeAll`, `wp_flushBuf`), and the file holds a prefix of it at every moment (`Writing`). Whether something
is still buffered depends on the lengths of what was written (`held`).
-/

namespace Posix

/-- A state of a file that is written: some prefix of `full`. -/
def Writing (file : Loc) (full : Bytes) (ch : Change) : Prop :=
  ch.loc = file ∧ ∃ c m t, ch.node = some (.file c m t) ∧ c <+: full

/-- Writing to a file changes what stands there only. -/
theorem Writing.grows {w w' : World} {l : Loc} {full c : Bytes} {m : Nat} {t : Int} (hfs : w.fs l = some (.file c m t))
    (h : w.Leads (Writing l full) w') : FS.Grows w.fs w'.fs ∧ ∃ c m t, w'.fs l = some (.file c m t) := by
  refine h.induct (I := fun fs => FS.Grows w.fs fs ∧ ∃ c m t, fs l = some (.file c m t))
    ⟨FS.Grows.refl _, c, m, t, hfs⟩ ?_
  rintro fs ⟨loc, node⟩ ⟨rfl, c', m', t', rfl, _⟩ ⟨hg, c₀, m₀, t₀, h₀⟩
  exact ⟨hg.trans (FS.grows_update (.inl (by rw [h₀]; rfl))), c', m', t', Function.update_self _ _ _⟩

theorem Writing.mono {l : Loc} {full full' : Bytes} (hpre : full <+: full') {ch : Change} (h : Writing l full ch) :
    Writing l full' ch := by
  obtain ⟨hloc, c, m, t, hnode, hc⟩ := h
  exact ⟨hloc, c, m, t, hnode, hc.trans hpre⟩

structure BufWriter where
  file : Loc
  capacity : Nat
  buf : Bytes

/-- Calls on a writer. -/
abbrev BufM := Act (World × BufWriter) Errno

namespace BufWriter

def withCapacity (capacity : Nat) (file : Loc) : BufWriter := ⟨file, capacity, []⟩

/-- Something is buffered. -/
def busy (b : BufWriter) : Bool := b.buf ≠ []

def spare (b : BufWriter) : Nat := b.capacity - b.buf.length

/-- Writes out what is buffered; after an error the rest stays. -/
def flushBuf : BufM Unit := fun s =>
  match writeUpTo s.2.file s.2.buf s.1 with
  | (.ok (), w) => (.ok (), (w, { s.2 with buf := [] }))
  | (.error (e, k), w) => (.error e, (w, { s.2 with buf := s.2.buf.drop k }))

def push (data : Bytes) : BufM Unit := Act.modify fun s => (s.1, { s.2 with buf := s.2.buf ++ data })

/-- What no buffer has room for goes to the file. -/
def writeRest (data : Bytes) : BufM Unit := do
  let b ← Act.read Prod.snd
  if data.length ≥ b.capacity then Act.onFst (Posix.writeAll b.file data) else push data

def writeAll (data : Bytes) : BufM Unit := do
  let b ← Act.read Prod.snd
  if data.length < b.spare then push data
  else if data.length > b.spare then do
    flushBuf
    writeRest data
  else writeRest data

/-- The file, after what is buffered was written out. -/
def intoInner : BufM Loc := do
  flushBuf
  Act.read fun s => s.2.file

/-- Dropping a writer writes out what is buffered, without a report. -/
def dropped (b : BufWriter) (w : World) : World := (flushBuf (w, b)).2.1

/-- A scope with a writer, which is dropped at its end. -/
def within {ε α : Type} (b : BufWriter) (x : Act (World × BufWriter) ε α) : Act World ε α :=
  Act.zoom (fun w => (w, b)) (fun _ s => s.2.dropped s.1) x

/-- Whether something is buffered after writes of these lengths: the last that was not empty decides. -/
def held (capacity : Nat) (before : Bool) (lengths : List Nat) : Bool :=
  (lengths.filter (· ≠ 0)).getLast?.elim before (· < capacity)

@[simp] theorem held_nil (capacity : Nat) (before : Bool) : held capacity before [] = before := rfl

theorem held_cons (capacity : Nat) (before : Bool) (n : Nat) (lengths : List Nat) :
    held capacity before (n :: lengths) = held capacity (if n = 0 then before else n < capacity) lengths := by
  unfold held
  by_cases hn : n = 0
  · rw [List.filter_cons_of_neg (by simpa using hn), if_pos hn]
  · rw [List.filter_cons_of_pos (by simpa using hn), if_neg hn, List.getLast?_cons]
    cases (lengths.filter (· ≠ 0)).getLast? <;> rfl

/-! ## What the file and the buffer hold -/

/-- The writer is one of this file and capacity, and what it wrote out and what it has buffered are together `d`. -/
structure Holds (l : Loc) (n : Nat) (d : Bytes) (s : World × BufWriter) : Prop where
  file : s.2.file = l
  capacity : s.2.capacity = n
  node : ∃ c m t, s.1.fs l = some (.file c m t) ∧ c ++ s.2.buf = d

variable {l : Loc} {n : Nat} {d : Bytes} {s : World × BufWriter}

/-- **Writing out** appends what is buffered to what the file holds. -/
theorem wp_flushBuf {c : Bytes} {m : Nat} {t : Int} (hfs : s.1.fs s.2.file = some (.file c m t)) :
    Act.wp flushBuf
      (fun _ s' => s.1.Leads (Writing s.2.file (c ++ s.2.buf)) s'.1 ∧ s'.2 = { s.2 with buf := [] } ∧
        ∃ t', s'.1.fs s.2.file = some (.file (c ++ s.2.buf) (if s.2.buf = [] then m else s.1.process.written m) t'))
      (fun _ s' => s.1.Leads (Writing s.2.file (c ++ s.2.buf)) s'.1 ∧ ¬ s.1.Reliable ∧
        ∃ k m' t', s'.2 = { s.2 with buf := s.2.buf.drop k } ∧
          s'.1.fs s.2.file = some (.file (c ++ s.2.buf.take k) m' t')) s := by
  have hwp := wp_writeUpTo (d := s.2.buf) (Q := fun _ w => s.1.Leads (Writing s.2.file (c ++ s.2.buf)) w ∧
      ∃ t', w.fs s.2.file = some (.file (c ++ s.2.buf) (if s.2.buf = [] then m else s.1.process.written m) t'))
    (E := fun e w => s.1.Leads (Writing s.2.file (c ++ s.2.buf)) w ∧ ¬ s.1.Reliable ∧
      ∃ m' t', w.fs s.2.file = some (.file (c ++ s.2.buf.take e.2) m' t')) hfs
    (fun hnil => ⟨World.Leads.refl _ _, t, by rw [hnil, List.append_nil, if_pos rfl]; exact hfs⟩)
    (fun hsome => ⟨World.Leads.emit _ ⟨rfl, _, _, _, rfl, List.prefix_refl _⟩, s.1.now, by
      rw [if_neg hsome]; exact Function.update_self _ _ _⟩)
    (fun k _ hbad => ⟨World.Leads.emit _ ⟨rfl, _, _, _, rfl, (List.prefix_append_right_inj c).2 (List.take_prefix k _)⟩,
      hbad, _, _, Function.update_self _ _ _⟩)
  unfold Act.wp flushBuf at *
  revert hwp
  cases writeUpTo s.2.file s.2.buf s.1 with
  | mk res w =>
    cases res with
    | ok u => exact fun h => ⟨h.1, rfl, h.2⟩
    | error e => exact fun ⟨hl, hbad, m', t', hnode⟩ => ⟨hl, hbad, e.2, m', t', rfl, hnode⟩

namespace Holds

/-- Writing out keeps what is held, also when it fails. -/
theorem flush (h : Holds l n d s) : Act.wp flushBuf
    (fun _ s' => Holds l n d s' ∧ s.1.Leads (Writing l d) s'.1 ∧ s'.2.buf = [])
    (fun _ s' => Holds l n d s' ∧ s.1.Leads (Writing l d) s'.1 ∧ ¬ s.1.Reliable) s := by
  obtain ⟨rfl, rfl, c, m, t, hfs, rfl⟩ := h
  refine Act.wp_mono (wp_flushBuf hfs) ?_ ?_
  · rintro _ ⟨w, b⟩ ⟨hl, hb, t', hnode⟩
    obtain rfl : b = _ := hb
    exact ⟨⟨rfl, rfl, _, _, t', hnode, List.append_nil _⟩, hl, rfl⟩
  · rintro e ⟨w, b⟩ ⟨hl, hbad, k, m', t', hb, hnode⟩
    obtain rfl : b = _ := hb
    refine ⟨⟨rfl, rfl, _, m', t', hnode, ?_⟩, hl, hbad⟩
    rw [List.append_assoc, List.take_append_drop]

/-- Dropping a writer leaves a prefix of what it held. -/
theorem leads_dropped (h : Holds l n d s) : s.1.Leads (Writing l d) (s.2.dropped s.1) :=
  Act.snd_of_wp (R := fun s' : World × BufWriter => s.1.Leads (Writing l d) s'.1)
    (Act.wp_mono h.flush (fun _ _ h => h.2.1) fun _ _ h => h.2.1)

theorem tick (h : Holds l n d s) : Holds l n d (s.1.tick, s.2) := ⟨h.file, h.capacity, h.node⟩

/-- The mode and the time of the file are no part of what is held. -/
theorem emit (h : Holds l n d s) {c : Bytes} {m : Nat} {t : Int} (hfs : s.1.fs l = some (.file c m t)) (m' : Nat)
    (t' : Int) : Holds l n d (s.1.tick.emit l (some (.file c m' t')), s.2) := by
  obtain ⟨hfile, hcap, c', m₀, t₀, hfs', rfl⟩ := h
  obtain ⟨rfl, _, _⟩ := Node.file.inj (Option.some.inj (hfs.symm.trans hfs'))
  exact ⟨hfile, hcap, c, m', t', Function.update_self _ _ _, rfl⟩

/-- More is buffered. -/
theorem pushed (h : Holds l n d s) (data : Bytes) :
    Holds l n (d ++ data) (s.1, { s.2 with buf := s.2.buf ++ data }) := by
  obtain ⟨hfile, hcap, c, m, t, hfs, rfl⟩ := h
  exact ⟨hfile, hcap, c, m, t, hfs, (List.append_assoc _ _ _).symm⟩

/-- The end of a write: what does not fit goes to the file directly, when nothing is buffered before it. -/
theorem writeRest (h : Holds l n d s) {data : Bytes} (hbuf : n ≤ data.length → data = [] ∨ s.2.buf = []) :
    Act.wp (BufWriter.writeRest data)
      (fun _ s' => Holds l n (d ++ data) s' ∧ s.1.Leads (Writing l (d ++ data)) s'.1 ∧
        s'.2.busy = if data.length = 0 then s.2.busy else data.length < n)
      (fun _ s' => s.1.Leads (Writing l (d ++ data)) s'.1 ∧ ¬ s.1.Reliable ∧
        ∃ d', d' <+: d ++ data ∧ Holds l n d' s') s := by
  have hheld := h
  obtain ⟨hfile, hcap, c, m, t, hfs, rfl⟩ := h
  unfold BufWriter.writeRest
  rw [Act.wp_bind, Act.wp_read, hfile, hcap]
  split
  · rename_i hlarge
    unfold Posix.writeAll
    rw [Act.wp_onFst, Act.wp_mapErr]
    by_cases hdata : data = []
    · subst hdata
      refine wp_writeUpTo hfs (fun _ => ?_) (fun hne => absurd rfl hne) fun _ hne => absurd rfl hne
      rw [List.append_nil]
      exact ⟨hheld, World.Leads.refl _ _, rfl⟩
    · have hempty := (hbuf hlarge).resolve_left hdata
      rw [hempty, List.append_nil]
      refine wp_writeUpTo hfs (fun hnil => absurd hnil hdata) (fun _ => ?_) fun k _ hbad => ?_
      · refine ⟨⟨hfile, hcap, _, _, _, Function.update_self _ _ _, by rw [hempty, List.append_nil]⟩,
          World.Leads.emit _ ⟨rfl, _, _, _, rfl, List.prefix_refl _⟩, ?_⟩
        rw [if_neg (by simpa using hdata), decide_eq_false (Nat.not_lt.2 hlarge), busy, hempty]
        rfl
      · have hpre : c ++ data.take k <+: c ++ data := (List.prefix_append_right_inj c).2 (List.take_prefix k _)
        exact ⟨World.Leads.emit _ ⟨rfl, _, _, _, rfl, hpre⟩, hbad, _, hpre, hfile, hcap, _, _, _,
          Function.update_self _ _ _, by rw [hempty, List.append_nil]⟩
  · rename_i hsmall
    refine ⟨hheld.pushed data, World.Leads.refl _ _, ?_⟩
    unfold busy
    by_cases hdata : data = []
    · simp [hdata]
    · rw [if_neg (by simpa using hdata), decide_eq_true (Nat.not_le.1 hsmall)]
      simp [hdata]

/-- **A write** adds the data to what is held, or fails with a part of it. -/
theorem writeAll (h : Holds l n d s) (data : Bytes) : Act.wp (BufWriter.writeAll data)
    (fun _ s' => Holds l n (d ++ data) s' ∧ s.1.Leads (Writing l (d ++ data)) s'.1 ∧
      s'.2.busy = if data.length = 0 then s.2.busy else data.length < n)
    (fun _ s' => s.1.Leads (Writing l (d ++ data)) s'.1 ∧ ¬ s.1.Reliable ∧
      ∃ d', d' <+: d ++ data ∧ Holds l n d' s') s := by
  have hpre : d <+: d ++ data := List.prefix_append d data
  obtain ⟨hfile, hcap, _⟩ := id h
  unfold BufWriter.writeAll
  rw [Act.wp_bind, Act.wp_read]
  split
  · -- there is room for it
    rename_i hroom
    refine ⟨h.pushed data, World.Leads.refl _ _, ?_⟩
    have hlt : data.length < n := by
      unfold spare at hroom
      omega
    unfold busy
    by_cases hdata : data = []
    · simp [hdata]
    · rw [if_neg (by simpa using hdata), decide_eq_true hlt]
      simp [hdata]
  · rename_i hroom
    split
    · -- what is buffered is written out first
      rename_i hmore
      rw [Act.wp_bind]
      refine Act.wp_mono h.flush ?_ fun _ s' ⟨h', hl, hbad⟩ => ⟨hl.mono fun _ => Writing.mono hpre, hbad, d, hpre, h'⟩
      rintro _ s₁ ⟨h₁, hl, hempty⟩
      refine Act.wp_mono (h₁.writeRest fun _ => .inr hempty) ?_ ?_
      · rintro _ s₂ ⟨h₂, hl₂, hbusy⟩
        refine ⟨h₂, (hl.mono fun _ => Writing.mono hpre).trans hl₂, ?_⟩
        rw [hbusy, if_neg (by omega), if_neg (by omega)]
      · rintro _ s₂ ⟨hl₂, hbad, hrest⟩
        exact ⟨(hl.mono fun _ => Writing.mono hpre).trans hl₂, fun hw => hbad (hl.reliable hw), hrest⟩
    · -- it fits exactly
      rename_i hmore
      refine h.writeRest fun hlarge => ?_
      unfold spare at hroom hmore
      rcases Nat.eq_zero_or_pos data.length with hzero | hpos
      · exact .inl (List.length_eq_zero_iff.1 hzero)
      · exact .inr (List.length_eq_zero_iff.1 (by omega))

end Holds

theorem dropped_empty {b : BufWriter} (hb : b.buf = []) (w : World) : b.dropped w = w := by
  unfold dropped flushBuf writeUpTo
  rw [if_pos hb]

end BufWriter
end Posix
