import Cryo.Completeness

/-!
# The pool and the writer, whatever is read

What the pool and the writer keep does not depend on where the reader started, so it holds of an append as of a
compression. `Flow` is their part of the invariant, with what was handed over, what was received, and the index that
`Finalize` was sent for; `ReadingFrom` is the main thread's, from any reader.

* `flow_other`, `flow_main`: every step keeps them.
* `Flow.written`: when the writer has ended with `Ok`, the blocks that were read were written in their order, and then
  the index.
-/

namespace Cryo

open Posix

namespace Threads

variable {K : Crates} {job : Job} {queue : List Path} {handed : List RawBlock} {received : List ProcessedBlock}
  {fin : Option (List FileEntry × Nat)} {s s' : State}

/-! ## The pool and the writer -/

/-- What the channel of the writer holds, and what the writer has done: until `Finalize` was sent it has not ended with
`Ok`, and then only after it. -/
def Post (K : Crates) (job : Job) (received : List ProcessedBlock) (fin : Option (List FileEntry × Nat)) (s : State) :
    Prop :=
  match fin with
  | none => (∀ message ∈ s.messages, ∃ b, message = .block b) ∧ ∀ arch, s.writer ≠ .ended (.ok ()) arch
  | some (files, total) => s.pool.result = some (.ok ()) ∧
    match s.writer with
    | .running .. => ∃ bs : List ProcessedBlock, s.messages = bs.map .block ++ [.finalize files total]
    | .ended (.ok ()) arch => s.messages = [] ∧
        ∃ r mid, absorb received ([], job.archive.index.block.length) job.archive = (.ok r, mid) ∧
          finalize K job.indexNonce files total mid = (.ok (), arch)
    | .ended (.error _) _ => True

variable (K) in
structure Flow (job : Job) (handed : List RawBlock) (received : List ProcessedBlock)
    (fin : Option (List FileEntry × Nat)) (s : State) : Prop where
  accounts : s.pool.failures = [] → Accounted K job s.pool s.messages handed received
  pool : PoolEnd s
  absorbed : ∀ q e arch, s.writer = .running q e arch →
    absorb received ([], job.archive.index.block.length) job.archive = (.ok (q, e), arch)
  post : Post K job received fin s

/-- The threads start with it. -/
theorem flow_spawn (job : Job) (queue : List Path) (path : Option Bytes) :
    Flow K job [] [] none (spawn job queue path) where
  accounts _ := ⟨[], by simp, .refl _, .refl _⟩
  pool := trivial
  absorbed q e arch h := by cases h; rfl
  post := ⟨by simp [spawn], by simp [spawn]⟩

/-- While a task is there the pool has not ended. -/
theorem Flow.running (h : Flow K job handed received fin s) (htask : s.pool.working ≠ [] ∨ s.pool.sending ≠ []) :
    s.pool.result = none := by
  have hpool := h.pool
  unfold PoolEnd at hpool
  cases hr : s.pool.result with
  | none => rfl
  | some result =>
    rw [hr] at hpool
    exact (htask.elim (· hpool.1) (· hpool.2.1)).elim

/-- A step of a pool that does not end. -/
theorem Flow.of_pool (h : Flow K job handed received fin s) (hresult : s.pool.result = none) {pool : Pool}
    (hresult' : pool.result = none) {messages : List WriterMessage}
    (hmessages : ∀ message ∈ messages, message ∈ s.messages ∨ ∃ b, message = .block b)
    (hacc : pool.failures = [] → Accounted K job pool messages handed received) :
    Flow K job handed received fin { s with pool := pool, messages := messages } where
  accounts := hacc
  pool := by
    unfold PoolEnd
    simp only [hresult']
  absorbed := h.absorbed
  post := by
    have hpost := h.post
    unfold Post at hpost ⊢
    cases fin with
    | none => exact ⟨fun message hmem => (hmessages message hmem).elim (hpost.1 message) id, hpost.2⟩
    | some f => exact absurd hpost.1 (by rw [hresult]; simp)

/-- A task that fails ends the accounting. -/
theorem Flow.of_failure (h : Flow K job handed received fin s) (hresult : s.pool.result = none) {pool : Pool}
    (hresult' : pool.result = none) (hfailures : pool.failures ≠ []) :
    Flow K job handed received fin { s with pool := pool } :=
  h.of_pool hresult hresult' (fun _ hmem => .inl hmem) fun hnil => absurd hnil hfailures

/-- A step of the writer, which was running. -/
theorem Flow.of_writer (h : Flow K job handed received fin s) {writer : Writer} {messages : List WriterMessage}
    {path : Option Bytes} {received' : List ProcessedBlock}
    (hacc : s.pool.failures = [] → Accounted K job s.pool messages handed received')
    (habsorbed : ∀ q e arch, writer = .running q e arch →
      absorb received' ([], job.archive.index.block.length) job.archive = (.ok (q, e), arch))
    (hpost : Post K job received' fin { s with messages := messages, writer := writer, path := path }) :
    Flow K job handed received' fin { s with messages := messages, writer := writer, path := path } :=
  ⟨hacc, h.pool, habsorbed, hpost⟩

/-- A writer that fails. -/
theorem Flow.of_writer_failed (h : Flow K job handed received fin s) {arch : ArchiveWriter}
    {messages : List WriterMessage} {path : Option Bytes} {received' : List ProcessedBlock}
    (hmessages : ∀ message ∈ messages, message ∈ s.messages)
    (hacc : s.pool.failures = [] → Accounted K job s.pool messages handed received') (failure : Halt) :
    Flow K job handed received' fin
      { s with messages := messages, writer := .ended (.error failure) arch, path := path } := by
  refine h.of_writer hacc (fun _ _ _ hw => by cases hw) ?_
  have hpost := h.post
  unfold Post at hpost ⊢
  cases fin with
  | none => exact ⟨fun message hmem => hpost.1 message (hmessages message hmem), by simp⟩
  | some f => exact ⟨hpost.1, trivial⟩

/-- A message is received. -/
theorem flow_receive (h : Flow K job handed received fin s) (hs : step K job s .receive = some s') :
    ∃ received', Flow K job handed received' fin s' := by
  simp only [step] at hs
  split at hs
  · rename_i q e arch message messages hrunning hmessages
    have hsub : ∀ m ∈ messages, m ∈ s.messages := fun m hmem => hmessages ▸ List.mem_cons_of_mem _ hmem
    have hpost := h.post
    unfold Post at hpost
    cases message with
    | block b =>
      have hacc : s.pool.failures = [] → Accounted K job s.pool messages handed (received ++ [b]) := fun hf =>
        (hmessages ▸ h.accounts hf).receive
      split at hs
      · rename_i r arch' hrun
        cases hs
        obtain ⟨_, _, hdrain, hpure⟩ := Act.bind_eq_ok.1 hrun
        cases hpure
        refine ⟨received ++ [b], h.of_writer hacc ?_ ?_⟩
        · intro q' e' arch'' hw
          cases hw
          rw [absorb_concat, Act.bind_of_ok (h.absorbed q e arch hrunning), hdrain]
        · unfold Post
          cases fin with
          | none => exact ⟨fun m hmem => hpost.1 m (hsub m hmem), by simp⟩
          | some f =>
            simp only [hrunning] at hpost
            obtain ⟨hresult, bs, hbs⟩ := hpost
            rw [hmessages] at hbs
            cases bs with
            | nil => cases hbs
            | cons b' bs => exact ⟨hresult, bs, (List.cons.inj hbs).2⟩
      · rename_i arch' hrun
        obtain ⟨_, _, _, hpure⟩ := Act.bind_eq_ok.1 hrun
        cases hpure
      · cases hs
        exact ⟨received ++ [b], h.of_writer_failed hsub hacc _⟩
    | finalize files total =>
      have hacc : s.pool.failures = [] → Accounted K job s.pool messages handed received := fun hf =>
        (h.accounts hf).of_blocks (by rw [hmessages]; rfl)
      split at hs
      · rename_i r arch' hrun
        obtain ⟨_, _, _, hpure⟩ := Act.bind_eq_ok.1 hrun
        cases hpure
      · rename_i arch' hrun
        cases hs
        obtain ⟨_, _, hfinal, hpure⟩ := Act.bind_eq_ok.1 hrun
        cases hpure
        refine ⟨received, h.of_writer hacc (fun _ _ _ hw => by cases hw) ?_⟩
        unfold Post
        cases fin with
        | none =>
          obtain ⟨b, hb⟩ := hpost.1 (.finalize files total) (by rw [hmessages]; exact List.mem_cons_self)
          cases hb
        | some f =>
          simp only [hrunning] at hpost
          obtain ⟨hresult, bs, hbs⟩ := hpost
          rw [hmessages] at hbs
          cases bs with
          | nil =>
            cases hbs
            exact ⟨hresult, rfl, (q, e), arch, h.absorbed q e arch hrunning, hfinal⟩
          | cons b' bs => cases hbs
      · cases hs
        exact ⟨received, h.of_writer_failed hsub hacc _⟩
  · cases hs

/-- **A step of the pool or of the writer**, while the call is not over. -/
theorem flow_other {move : Move} (hmove : move ≠ .main) (hover : s.main.over = false)
    (h : Flow K job handed received fin s) (hs : step K job s move = some s') :
    ∃ received', Flow K job handed received' fin s' := by
  cases move with
  | main => exact absurd rfl hmove
  | receive => exact flow_receive h hs
  | take =>
    simp only [step] at hs
    split at hs
    · rename_i b raw hresult hraw
      cases hs
      refine ⟨received, h.of_pool hresult ?_ (fun _ hmem => .inl hmem) fun hf => (h.accounts hf).take hraw⟩
      exact hresult
    · cases hs
  | process b nonce =>
    simp only [step] at hs
    split at hs
    · rename_i hb
      have hresult := h.running (.inl (List.ne_nil_of_mem hb))
      split at hs
      · rename_i p hp
        cases hs
        refine ⟨received, h.of_pool hresult ?_ (fun _ hmem => .inl hmem) fun hf => (h.accounts hf).process hb hp⟩
        exact hresult
      · cases hs
        exact ⟨received, h.of_failure hresult hresult (by simp)⟩
    · cases hs
  | send b =>
    simp only [step] at hs
    split at hs
    · rename_i hb
      have hresult := h.running (.inr (List.ne_nil_of_mem hb))
      split at hs
      · cases hs
        refine ⟨received, h.of_pool hresult ?_ (fun message hmem => ?_) fun hf => (h.accounts hf).send hb⟩
        · exact hresult
        · rcases List.mem_append.1 hmem with hmem | hmem
          · exact .inl hmem
          · exact .inr ⟨b, List.mem_singleton.1 hmem⟩
      · cases hs
        exact ⟨received, h.of_failure hresult hresult (by simp)⟩
    · cases hs
  | failProcess b e =>
    simp only [step] at hs
    split at hs
    · rename_i hb
      have hresult := h.running (.inl (List.ne_nil_of_mem hb))
      cases hs
      exact ⟨received, h.of_failure hresult hresult (by simp)⟩
    · cases hs
  | failSend b e =>
    simp only [step] at hs
    split at hs
    · rename_i hb
      have hresult := h.running (.inr (List.ne_nil_of_mem hb))
      cases hs
      exact ⟨received, h.of_failure hresult hresult (by simp)⟩
    · cases hs
  | endPool result =>
    simp only [step] at hs
    split at hs
    · rename_i hend
      obtain ⟨hresult, hworking, hsending, hcan⟩ := hend
      rw [Option.isNone_iff_eq_none] at hresult
      cases hs
      have hpost := h.post
      refine ⟨received, h.accounts, ⟨hworking, hsending, ?_⟩, h.absorbed, ?_⟩
      · cases result with
        | ok _ =>
          simp only [State.canEnd, Bool.and_eq_true, List.isEmpty_iff] at hcan
          exact ⟨hcan.1.1, hcan.1.2, hcan.2⟩
        | error e =>
          simp only [State.canEnd, List.contains_iff_mem] at hcan
          exact List.ne_nil_of_mem hcan
      · unfold Post at hpost ⊢
        cases fin with
        | none => exact hpost
        | some f => exact absurd hpost.1 (by rw [hresult]; simp)
    · cases hs
  | panicWriter message =>
    simp only [step] at hs
    split at hs
    · cases hs
      exact ⟨received, h.of_writer_failed (fun _ hmem => hmem) h.accounts (.panic message)⟩
    · cases hs
  | disconnect =>
    simp only [step] at hs
    split at hs
    · rw [if_neg (by simp [hover])] at hs
      cases hs
    · cases hs

/-- A raw block is handed over while the channel is open. -/
theorem Flow.offer (h : Flow K job handed received fin s) (hopen : s.main.closed = false) (b : RawBlock)
    (outbox : List RawBlock) :
    Flow K job (handed ++ [b]) received fin { s with outbox := outbox, pool := s.pool.offer b } := by
  have hpool := h.pool
  unfold PoolEnd at hpool
  refine ⟨fun hf => ?_, ?_, h.absorbed, ?_⟩
  · rw [Pool.offer_failures] at hf
    cases hr : s.pool.result with
    | none => exact (h.accounts hf).offer hr b
    | some result =>
      rw [hr] at hpool
      cases result with
      | ok _ => rw [hopen] at hpool; cases hpool.2.2.1
      | error e => exact absurd hf hpool.2.2
  · cases hr : s.pool.result with
    | none =>
      unfold PoolEnd
      simp only [Pool.offer_result, hr]
    | some result =>
      have hsame : s.pool.offer b = s.pool := by unfold Pool.offer; rw [hr]; rfl
      rw [hsame]
      exact h.pool
  · have hpost := h.post
    unfold Post at hpost ⊢
    simp only [Pool.offer_result]
    exact hpost

/-- The main thread does not open the channel again. -/
theorem Flow.of_main (h : Flow K job handed received fin s) {main : Main} (reader : ReadState)
    (outbox : List RawBlock) (hclosed : s.main.closed = false ∨ main.closed = true) :
    Flow K job handed received fin { s with main := main, reader := reader, outbox := outbox } := by
  have hpool := h.pool
  have hpost := h.post
  refine ⟨h.accounts, ?_, h.absorbed, hpost⟩
  unfold PoolEnd at hpool ⊢
  cases hr : s.pool.result with
  | none => trivial
  | some result =>
    rw [hr] at hpool
    cases result with
    | ok _ =>
      refine ⟨hpool.1, hpool.2.1, hclosed.resolve_left ?_, hpool.2.2.2⟩
      simp [hpool.2.2.1]
    | error e => exact hpool

/-- `Finalize` is sent when the pool has ended. -/
theorem Flow.send (h : Flow K job handed received none s) (hresult : s.pool.result = some (.ok ()))
    (files : List FileEntry) (total : Nat) {main : Main} (hclosed : main.closed = true) :
    Flow K job handed received (some (files, total))
      { s with messages := s.messages ++ [.finalize files total], main := main } := by
  obtain ⟨hblocks, hwriter⟩ := h.post
  obtain ⟨bs, hbs⟩ := exists_blocks hblocks
  refine ⟨fun hf => (h.accounts hf).of_blocks (by simp), h.pool.of_closed rfl hclosed, h.absorbed, hresult, ?_⟩
  cases hw : s.writer with
  | running q e arch => exact ⟨bs, by rw [hbs]⟩
  | ended result arch =>
    cases result with
    | ok _ => exact absurd hw (hwriter arch)
    | error e => trivial

/-- `Finalize` is lost, as the writer has failed. -/
theorem Flow.lose (h : Flow K job handed received none s) (hresult : s.pool.result = some (.ok ()))
    (files : List FileEntry) (total : Nat) {result : Except Halt Unit} {arch : ArchiveWriter}
    (hended : s.writer = .ended result arch) {main : Main} (hclosed : main.closed = true) :
    Flow K job handed received (some (files, total)) { s with main := main } := by
  refine ⟨h.accounts, h.pool.of_closed rfl hclosed, h.absorbed, hresult, ?_⟩
  simp only [hended]
  cases result with
  | ok _ => exact absurd hended (h.post.2 arch)
  | error e => trivial

/-! ## The main thread -/

/-- `Reading`, from any reader: what is left to read continues what was read, and what was handed to the pool or is
about to be is what the reader has produced. `Finalize` was sent for `fin`. -/
def ReadingFrom (job : Job) (start : ReadState) (queue : List Path) (handed : List RawBlock)
    (fin : Option (List FileEntry × Nat)) (s : State) : Prop :=
  match s.main with
  | .next ps => fin = none ∧
    readFiles job.os job.root job.blockSize queue start = readFiles job.os job.root job.blockSize ps s.reader ∧
      handed ++ s.outbox = s.reader.sent
  | .reading p pieces err ps => fin = none ∧
    readFiles job.os job.root job.blockSize queue start = (do
      readPieces p job.blockSize pieces err
      readFiles job.os job.root job.blockSize ps : ReadM Unit) s.reader ∧ handed ++ s.outbox = s.reader.sent
  | .done (.ok ()) => fin = none ∧
    readFiles job.os job.root job.blockSize queue start = (.ok (), s.reader) ∧ handed ++ s.outbox = s.reader.produced
  | .done (.error _) => fin = none
  | .joining (.ok ()) => fin = none ∧
    readFiles job.os job.root job.blockSize queue start = (.ok (), s.reader) ∧ s.outbox = [] ∧
      handed = s.reader.produced
  | .waiting => fin = some (s.reader.files, s.reader.streamPosition) ∧
    readFiles job.os job.root job.blockSize queue start = (.ok (), s.reader) ∧ s.outbox = [] ∧
      handed = s.reader.produced
  | .joining (.error _) | .cleanup _ | .returned _ | .panicked _ => False

/-- **A step of the main thread before the joins**: it goes on, or panics. -/
theorem flow_main {start : ReadState} (h : Flow K job handed received fin s)
    (hr : ReadingFrom job start queue handed fin s) (hreading : s.outbox ≠ [] ∨ s.main.closed = false)
    (herror : ∀ e, s.outbox = [] → s.main ≠ .done (.error e)) (hs : mainStep job s = some s') :
    (∃ message, s'.main = .panicked message) ∨
      ∃ handed', Flow K job handed' received fin s' ∧ ReadingFrom job start queue handed' fin s' := by
  obtain ⟨path, main, reader, outbox, pool, messages, writer⟩ := s
  unfold ReadingFrom at hr
  unfold mainStep at hs
  cases outbox with
  | cons b outbox =>
    cases hs
    have hopen : main.closed = false := by
      cases main with
      | next | reading | done => rfl
      | joining readResult =>
        cases readResult with
        | ok _ => cases hr.2.2.1
        | error e => exact hr.elim
      | waiting => cases hr.2.2.1
      | cleanup | returned | panicked => exact hr.elim
    refine .inr ⟨handed ++ [b], h.offer hopen b outbox, ?_⟩
    have happ : handed ++ [b] ++ outbox = handed ++ b :: outbox := by simp
    unfold ReadingFrom
    cases main with
    | next | reading =>
      simp only [happ]
      exact hr
    | done readResult =>
      cases readResult with
      | ok _ =>
        simp only [happ]
        exact hr
      | error e => exact hr
    | joining | waiting | cleanup | returned | panicked => cases hopen
  | nil =>
    cases main with
    | next ps =>
      obtain ⟨hfin, hread, hhanded⟩ := hr
      cases ps with
      | nil =>
        cases hs
        refine .inr ⟨handed, h.of_main _ _ (.inl rfl), hfin, hread, ?_⟩
        rw [List.append_nil] at hhanded
        rw [hhanded]
        rfl
      | cons p ps =>
        rw [readFiles_openPath] at hread
        have hsent := Act.snd_of_wp (openPath_sent job.os p job.root job.blockSize reader.sent reader rfl)
        simp only at hs hread
        split at hs
        · rename_i reader' hrun
          rw [hrun] at hread hsent
          cases hs
          exact .inr ⟨handed, h.of_main _ _ (.inl rfl), hfin, hread, hhanded.trans hsent.symm⟩
        · rename_i file reader' hrun
          rw [hrun] at hread hsent
          cases hs
          exact .inr ⟨handed, h.of_main _ _ (.inl rfl), hfin, hread, hhanded.trans hsent.symm⟩
        · cases hs
          exact .inr ⟨handed, h.of_main _ _ (.inl rfl), hfin⟩
        · cases hs
          exact .inl ⟨_, rfl⟩
    | reading p pieces err ps =>
      obtain ⟨hfin, hread, hhanded⟩ := hr
      cases pieces with
      | nil =>
        cases err with
        | none =>
          cases hs
          exact .inr ⟨handed, h.of_main _ _ (.inl rfl), hfin, hread, hhanded⟩
        | some e =>
          cases hs
          exact .inr ⟨handed, h.of_main _ _ (.inl rfl), hfin⟩
      | cons d pieces =>
        cases hs
        refine .inr ⟨handed, h.of_main _ _ (.inl rfl), hfin, hread, ?_⟩
        rw [List.append_nil] at hhanded
        rw [hhanded]
        exact consume_sent job.blockSize reader d
    | done readResult =>
      cases readResult with
      | error e => exact absurd rfl (herror e rfl)
      | ok _ =>
        cases hs
        obtain ⟨hfin, hread, hhanded⟩ := hr
        rw [List.append_nil] at hhanded
        exact .inr ⟨handed, h.of_main _ _ (.inr rfl), hfin, hread, rfl, hhanded⟩
    | joining | waiting | cleanup | returned | panicked =>
      rcases hreading with hne | hopen
      · exact absurd rfl hne
      · cases hopen

theorem ReadingFrom.not_over {start : ReadState} (h : ReadingFrom job start queue handed fin s) :
    s.main.over = false := by
  unfold ReadingFrom at h
  cases hmain : s.main with
  | returned | panicked => simp [hmain] at h
  | _ => rfl

/-- The other threads leave the main thread where it is. -/
theorem step_main_same {move : Move} (hmove : move ≠ .main) (h : step K job s move = some s') :
    s'.main = s.main ∧ s'.reader = s.reader ∧ s'.outbox = s.outbox := by
  cases move with
  | main => exact absurd rfl hmove
  | _ =>
    unfold step at h
    dsimp only at h
    repeat' split at h
    all_goals cases h
    all_goals exact ⟨rfl, rfl, rfl⟩

theorem ReadingFrom.congr {start : ReadState} (h : ReadingFrom job start queue handed fin s)
    (hsame : s'.main = s.main ∧ s'.reader = s.reader ∧ s'.outbox = s.outbox) :
    ReadingFrom job start queue handed fin s' := by
  obtain ⟨hmain, hreader, houtbox⟩ := hsame
  unfold ReadingFrom at h ⊢
  rw [hmain, hreader, houtbox]
  exact h

/-! ## The end -/

/-- The raw blocks after a loaded archive are numbered from its block count on. -/
theorem resumed_ids {os : Os} {root : Path} {bs : Nat} {old : List FileEntry} {pos n : Nat} {reader : ReadState}
    (h : readFiles os root bs queue (.resume old pos n) = (.ok (), reader)) :
    reader.produced.map RawBlock.id = List.range' n reader.produced.length := by
  have hshort := ReadState.resume_short bs old pos n
  obtain ⟨srcs, hobs, rfl⟩ := readFiles_ok hshort h
  rw [ReadState.foldl_add hshort (feedable_of_observe hobs)]
  have hproduced : (ReadState.feed bs (.resume old pos n) (Source.stream srcs)).produced = _ :=
    ReadState.produced_feed (Source.stream srcs)
  show (ReadState.feed bs (.resume old pos n) (Source.stream srcs)).produced.map RawBlock.id
    = List.range' n (ReadState.feed bs (.resume old pos n) (Source.stream srcs)).produced.length
  rw [hproduced]
  simp [ReadState.resume, numbered_ids]

/-- **When the writer has ended with `Ok`**, it has written what the sequential run writes with the nonces that the pool
has drawn. -/
theorem Flow.written {arch : ArchiveWriter} (h : Flow K job s.reader.produced received
      (some (s.reader.files, s.reader.streamPosition)) s)
    (hids : s.reader.produced.map RawBlock.id
      = List.range' job.archive.index.block.length s.reader.produced.length)
    (hended : s.writer = .ended (.ok ()) arch) : ∃ nonces, ∀ delivery,
      runThreads K ⟨job.os, ⟨nonces, job.indexNonce⟩, delivery⟩ job.archive s.reader.produced (.ok ()) s.reader.files
        s.reader.streamPosition = .ok arch := by
  have hpost := h.post
  have hpool := h.pool
  unfold Post at hpost
  simp only [hended] at hpost
  obtain ⟨hresult, hmessages, r, mid, habsorb, hfinal⟩ := hpost
  unfold PoolEnd at hpool
  rw [hresult] at hpool
  obtain ⟨hworking, hsending, _, hraw, hfailures⟩ := hpool
  obtain ⟨pairs, hwork, hfst, hsnd⟩ := h.accounts hfailures
  rw [hraw, hworking] at hfst
  rw [hsending, hmessages] at hsnd
  obtain ⟨processed, hprocessed, hperm⟩ :=
    exists_sorted (R := fun raw b => ∃ nonce, job.work K nonce raw = .ok b) hfst hwork
  obtain ⟨nonces, hspawn⟩ := exists_spawn hids hprocessed
  have hprocessedIds : processed.map ProcessedBlock.id
      = List.range' job.archive.index.block.length processed.length := by
    rw [spawnWorkers_ids hspawn, hids, hprocessed.length_eq]
  have hreceived : received.Perm processed := hsnd.trans hperm
  rw [absorb_perm hprocessedIds hreceived] at habsorb
  obtain ⟨_, mid', hblocks, hpure⟩ := Act.bind_eq_ok.1 habsorb
  cases hpure
  refine ⟨nonces, fun delivery => ?_⟩
  have hworkers : spawnWorkers K s.reader.produced nonces job.archive.cipher job.archive.header.archiveId
      job.archive.header.compression job.archive.header.compressionLevel = .ok processed := hspawn
  unfold runThreads
  simp only [hworkers, Except.mapError, Except.ok_bind]
  rw [writer_eq K _ hprocessedIds (delivery.perm processed), Act.bind_of_ok hblocks, hfinal]

/-- A pool that has ended with `Ok` and a writer that has ended are at rest. -/
theorem Flow.rest {f : List FileEntry × Nat} {result : Except Halt Unit} {arch : ArchiveWriter}
    (h : Flow K job handed received (some f) s) (hended : s.writer = .ended result arch) {move : Move}
    (hmove : move ≠ .main) : step K job s move = none := by
  have hresult : s.pool.result = some (.ok ()) := h.post.1
  have hpool := h.pool
  unfold PoolEnd at hpool
  rw [hresult] at hpool
  obtain ⟨hworking, hsending, _, _, _⟩ := hpool
  cases move with
  | main => exact absurd rfl hmove
  | take => simp [step, hresult]
  | process b nonce => simp [step, hworking]
  | send b => simp [step, hsending]
  | failProcess b e => simp [step, hworking]
  | failSend b e => simp [step, hsending]
  | endPool result => simp [step, hresult]
  | receive => simp [step, hended]
  | panicWriter message => simp [step, hended]
  | disconnect => simp [step, hended]

end Threads

end Cryo
