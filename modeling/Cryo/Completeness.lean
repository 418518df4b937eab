import Cryo.Liveness

/-!
# The threads add no failure

A schedule in which nothing fails from outside (no panic, no task that is given up) ends with `Ok`, when the sequential
run ends with `Ok` whatever nonces are drawn: every block that is handed to the pool is one that the sequential run
processes, and what the writer has written is always the beginning of what the sequential run writes.

* `calm_step`, `calm_run`: in such a schedule no thread ever fails.
* `compress_succeeds`: until the call has returned `Ok` some thread can step, and no schedule goes on for ever.
-/

namespace Cryo

open Posix

namespace Threads

variable {K : Crates} {job : Job} {queue : List Path} {handed : List RawBlock} {received : List ProcessedBlock}
  {s s' : State}

/-! ## The sequential run -/

variable (K) in
/-- The sequential run succeeds, whatever nonces are drawn for the blocks. -/
def Job.Succeeds (job : Job) (queue : List Path) : Prop :=
  ∀ draws : Draws, draws.indexNonce = job.indexNonce →
    ∃ arch, compressFiles K ⟨job.os, draws, .sequential⟩ job.archive job.root queue job.blockSize = .ok arch

/-- What the pool makes of blocks when each draws the nonce of its number. -/
def Job.spawn (K : Crates) (job : Job) (raws : List RawBlock) (nonces : Nat → Nonce) : Result (List ProcessedBlock) :=
  spawnWorkers K raws nonces job.archive.cipher job.archive.header.archiveId job.archive.header.compression
    job.archive.header.compressionLevel

variable (K) in
/-- All that the job does: what is read, and that whatever is processed from it can be written. -/
structure Job.Plan (job : Job) (queue : List Path) (reader : ReadState) : Prop where
  read : readFiles job.os job.root job.blockSize queue .start = (.ok (), reader)
  works : ∀ nonces, ∃ processed, job.spawn K reader.produced nonces = .ok processed
  writes : ∀ nonces processed, job.spawn K reader.produced nonces = .ok processed → ∃ mid arch,
    writeBlocks processed job.archive = (.ok (), mid) ∧
      finalize K job.indexNonce reader.files reader.streamPosition mid = (.ok (), arch)

/-- One sequential run, taken apart. -/
theorem compressFiles_parts {env : Env} {arch arch' : ArchiveWriter} {root : Path} {bs : Nat}
    (hnew : arch.index.block = []) (h : compressFiles K env arch root queue bs = .ok arch') :
    ∃ reader processed mid, readFiles env.os root bs queue .start = (.ok (), reader) ∧
      spawnWorkers K reader.produced env.draws.nonces arch.cipher arch.header.archiveId arch.header.compression
        arch.header.compressionLevel = .ok processed ∧
      writeBlocks processed arch = (.ok (), mid) ∧
      finalize K env.draws.indexNonce reader.files reader.streamPosition mid = (.ok (), arch') := by
  unfold compressFiles at h
  split at h
  · cases h
  · exact absurd h runThreads_failed
  · rename_i reader hread
    obtain ⟨processed, hworkers, h⟩ := Except.bind_eq_ok.1 h
    have hworkers := Except.mapError_eq_ok.1 hworkers
    have hids : processed.map ProcessedBlock.id = List.range' arch.index.block.length processed.length := by
      have hlength := (Except.mapM_eq_ok.1 hworkers).length_eq
      rw [hnew, spawnWorkers_ids hworkers, produced_ids hread, hlength, List.range_eq_range']
      rfl
    rw [Except.ok_bind, writer_eq K _ hids (env.delivery.perm processed)] at h
    split at h
    · rename_i arch₁ hwriter
      cases h
      obtain ⟨_, mid, hblocks, hfinal⟩ := Act.bind_eq_ok.1 hwriter
      exact ⟨reader, processed, mid, hread, hworkers, hblocks, hfinal⟩
    · cases h

/-- The plan of a job whose sequential run succeeds. -/
theorem Job.Succeeds.plan (hnew : job.archive.index.block = []) (h : job.Succeeds K queue) :
    ∃ reader, job.Plan K queue reader := by
  obtain ⟨arch, hrun⟩ := h ⟨fun _ => Vector.replicate 12 0, job.indexNonce⟩ rfl
  obtain ⟨reader, _, _, hread, _⟩ := compressFiles_parts hnew hrun
  have hparts : ∀ nonces, ∃ processed mid arch, job.spawn K reader.produced nonces = .ok processed ∧
      writeBlocks processed job.archive = (.ok (), mid) ∧
      finalize K job.indexNonce reader.files reader.streamPosition mid = (.ok (), arch) := by
    intro nonces
    obtain ⟨arch, hrun⟩ := h ⟨nonces, job.indexNonce⟩ rfl
    obtain ⟨reader', processed, mid, hread', hworkers, hblocks, hfinal⟩ := compressFiles_parts hnew hrun
    cases hread.symm.trans hread'
    exact ⟨processed, mid, arch, hworkers, hblocks, hfinal⟩
  refine ⟨reader, hread, fun nonces => ?_, fun nonces processed hworkers => ?_⟩
  · obtain ⟨processed, _, _, hworkers, _⟩ := hparts nonces
    exact ⟨processed, hworkers⟩
  · obtain ⟨processed', mid, arch, hworkers', hblocks, hfinal⟩ := hparts nonces
    cases hworkers.symm.trans hworkers'
    exact ⟨mid, arch, hblocks, hfinal⟩

/-! ## What is handed over is planned -/

theorem foldl_consume_sent (bs : Nat) : ∀ (pieces : List Bytes) (r : ReadState),
    r.sent <+: (pieces.foldl (ReadState.consume bs) r).sent
  | [], r => List.prefix_refl r.sent
  | d :: pieces, r =>
    have hd : r.sent <+: (r.consume bs d).sent := ⟨_, consume_sent bs r d⟩
    hd.trans (foldl_consume_sent bs pieces (r.consume bs d))

theorem readPieces_sent (p : Path) (bs : Nat) (pieces : List Bytes) (err : Option Errno) (l : List RawBlock) :
    Act.Keeps (fun s : ReadState => l <+: s.sent) (readPieces p bs pieces err) := by
  refine Act.keeps_of_snd fun r hr => ?_
  have hsent := hr.trans (foldl_consume_sent bs pieces r)
  unfold readPieces
  cases err <;> exact hsent

/-- What was sent before is sent after reading. -/
theorem readFiles_sent (os : Os) (root : Path) (bs : Nat) (l : List RawBlock) : ∀ queue : List Path,
    Act.Keeps (fun s : ReadState => l <+: s.sent) (readFiles os root bs queue)
  | [] => Act.keeps_pure _
  | p :: ps => by
    refine Act.keeps_of_snd fun r hr => ?_
    rw [readFiles_openPath]
    have hopen := Act.snd_of_wp (openPath_sent os p root bs r.sent r rfl)
    have hrest := readFiles_sent os root bs l ps
    split
    · rename_i file r' hrun
      rw [hrun] at hopen
      have hr' : l <+: r'.sent := hr.trans (show r.sent <+: r'.sent from hopen.symm ▸ List.prefix_refl _)
      have hloop := Act.keeps_bind (readPieces_sent p bs (file.reads bs) (file.err bs) l) fun _ => hrest
      exact Act.snd_of_wp (hloop r' hr')
    · rename_i r' hrun
      rw [hrun] at hopen
      exact Act.snd_of_wp (hrest r' (hr.trans (show r.sent <+: r'.sent from hopen.symm ▸ List.prefix_refl _)))
    · rename_i e r' hrun
      rw [hrun] at hopen
      exact hr.trans (show r.sent <+: r'.sent from hopen.symm ▸ List.prefix_refl _)

/-- The main thread goes on, or has returned `Ok`. -/
def Main.calm : Main → Bool
  | .next _ | .reading .. | .done (.ok _) | .joining (.ok _) | .waiting | .returned (.ok _) => true
  | _ => false

/-- **What is handed over is planned.** -/
theorem Reading.planned {reader : ReadState} (hplan : job.Plan K queue reader) (h : Reading job queue handed s)
    (hcalm : s.main.calm = true) (hover : s.main.over = false) : handed ++ s.outbox <+: reader.produced := by
  have hread := hplan.read
  unfold Reading at h
  cases hm : s.main with
  | next ps =>
    rw [hm] at h
    obtain ⟨hrest, hsent⟩ := h
    have hpre := Act.snd_of_wp (readFiles_sent job.os job.root job.blockSize _ ps s.reader (List.prefix_refl _))
    rw [← hrest, hread] at hpre
    rw [hsent]
    exact hpre.trans (List.prefix_append _ _)
  | reading p pieces err ps =>
    rw [hm] at h
    obtain ⟨hrest, hsent⟩ := h
    have hkeeps := Act.keeps_bind (readPieces_sent p job.blockSize pieces err s.reader.sent) fun _ =>
      readFiles_sent job.os job.root job.blockSize s.reader.sent ps
    have hpre := Act.snd_of_wp (hkeeps s.reader (List.prefix_refl _))
    rw [← hrest, hread] at hpre
    rw [hsent]
    exact hpre.trans (List.prefix_append _ _)
  | done readResult =>
    cases readResult with
    | ok _ =>
      rw [hm] at h
      obtain ⟨hrest, hproduced⟩ := h
      cases hread.symm.trans hrest
      exact hproduced ▸ List.prefix_refl _
    | error e => rw [hm] at hcalm; cases hcalm
  | joining readResult =>
    cases readResult with
    | ok _ =>
      rw [hm] at h
      obtain ⟨hrest, hproduced⟩ := h
      cases hread.symm.trans hrest
      exact hproduced ▸ List.prefix_refl _
    | error e => rw [hm] at hcalm; cases hcalm
  | waiting =>
    rw [hm] at h
    obtain ⟨hrest, hproduced⟩ := h
    cases hread.symm.trans hrest
    exact hproduced ▸ List.prefix_refl _
  | cleanup e => rw [hm] at hcalm; cases hcalm
  | returned r => rw [hm] at hover; cases hover
  | panicked m => rw [hm] at hover; cases hover

/-! ## What is received is the beginning of what is planned -/

/-- The raw blocks of a new archive are numbered from zero on. -/
theorem produced_range' {os : Os} {root : Path} {bs : Nat} {reader : ReadState}
    (h : readFiles os root bs queue .start = (.ok (), reader)) :
    reader.produced.map RawBlock.id = List.range' 0 reader.produced.length := by
  rw [produced_ids h, List.range_eq_range']

/-- Pairs put in the order of their first components. -/
theorem exists_sorted {α β : Type} {R : α → β → Prop} {pairs : List (α × β)} {l : List α}
    (hperm : (pairs.map Prod.fst).Perm l) (hR : ∀ x ∈ pairs, R x.1 x.2) :
    ∃ m, List.Forall₂ R l m ∧ (pairs.map Prod.snd).Perm m := by
  have hpairs : List.Forall₂ (fun a x => a = x.1 ∧ R a x.2) (pairs.map Prod.fst) pairs :=
    List.forall₂_map_left_iff.2 (List.forall₂_same.2 fun x hx => ⟨rfl, hR x hx⟩)
  obtain ⟨sorted, hsorted, hsame⟩ := List.perm_comp_forall₂ hperm.symm hpairs
  exact ⟨sorted.map Prod.snd, List.forall₂_map_right_iff.2 (hsorted.imp fun _ _ hx => hx.2), (hsame.map Prod.snd).symm⟩

/-- Blocks that were processed with some nonces are what the pool makes with these. -/
theorem exists_spawn {raws : List RawBlock} {processed : List ProcessedBlock} {n : Nat}
    (hids : raws.map RawBlock.id = List.range' n raws.length)
    (h : List.Forall₂ (fun raw b => ∃ nonce, job.work K nonce raw = .ok b) raws processed) :
    ∃ nonces, job.spawn K raws nonces = .ok processed := by
  let nonces (i : Nat) : Nonce := (processed[i - n]?.map ProcessedBlock.nonce).getD (Vector.replicate 12 0)
  refine ⟨nonces, Except.mapM_eq_ok.2 (List.forall₂_iff_get.2 ⟨h.length_eq, fun i h₁ h₂ => ?_⟩)⟩
  obtain ⟨nonce, hwork⟩ := (List.forall₂_iff_get.1 h).2 i h₁ h₂
  have hid : (raws.get ⟨i, h₁⟩).id = n + i := by
    have hi : (raws.map RawBlock.id)[i]? = some (raws.get ⟨i, h₁⟩).id := by simp [h₁]
    rw [hids, List.getElem?_range' h₁, Nat.one_mul] at hi
    exact (Option.some.inj hi).symm
  have hnonce : nonces (raws.get ⟨i, h₁⟩).id = nonce := by
    rw [hid, ← (workerTask_ok hwork).2]
    simp [nonces, h₂]
  rw [hnonce]
  exact hwork

/-- **The blocks of a schedule so far are some of a sequential run's**: those received, those under way, and what will
be made of the raw blocks that are left. -/
theorem Accounted.planned {pool : Pool} {messages : List WriterMessage} {reader : ReadState}
    (hplan : job.Plan K queue reader) (h : Accounted K job pool messages handed received)
    (hpre : handed <+: reader.produced) :
    ∃ nonces processed rest, job.spawn K reader.produced nonces = .ok processed ∧
      (received ++ (pool.sending ++ blocksOf messages ++ rest)).Perm processed ∧
      rest.length + handed.length = pool.raw.length + pool.working.length + reader.produced.length := by
  obtain ⟨pairs, hwork, hraw, hdone⟩ := h
  obtain ⟨more, hmore⟩ := hpre
  have hworks : ∀ raw ∈ reader.produced, ∃ b, job.work K (Vector.replicate 12 0) raw = .ok b := fun raw hraw => by
    obtain ⟨processed, hall⟩ := hplan.works fun _ => Vector.replicate 12 0
    obtain ⟨b, _, hb⟩ := (Except.mapM_eq_ok.1 hall).exists_of_mem hraw
    exact ⟨b, hb⟩
  have hleft : ∀ raw ∈ pool.raw ++ pool.working ++ more, raw ∈ reader.produced := fun raw hmem => by
    rw [← hmore]
    rcases List.mem_append.1 hmem with hmem | hmem
    · exact List.mem_append_left _ (hraw.subset (List.mem_append_left _ hmem))
    · exact List.mem_append_right _ hmem
  obtain ⟨rest, hrest⟩ := Except.exists_mapM_ok fun raw hmem => hworks raw (hleft raw hmem)
  have hrest := Except.mapM_eq_ok.1 hrest
  let pairs' := pairs ++ (pool.raw ++ pool.working ++ more).zip rest
  have hfst : pairs'.map Prod.fst = pairs.map Prod.fst ++ (pool.raw ++ pool.working ++ more) := by
    rw [List.map_append, List.map_fst_zip hrest.length_eq.le]
  have hsnd : pairs'.map Prod.snd = pairs.map Prod.snd ++ rest := by
    rw [List.map_append, List.map_snd_zip hrest.length_eq.ge]
  have hperm : (pairs'.map Prod.fst).Perm reader.produced := by
    rw [hfst, ← hmore, ← List.append_assoc]
    exact (List.perm_append_comm.trans hraw).append_right more
  have hall : ∀ x ∈ pairs', ∃ nonce, job.work K nonce x.1 = .ok x.2 := fun x hx => by
    rcases List.mem_append.1 hx with hx | hx
    · exact hwork x hx
    · exact ⟨_, List.forall₂_zip hrest hx⟩
  obtain ⟨processed, hprocessed, hsame⟩ :=
    exists_sorted (R := fun raw b => ∃ nonce, job.work K nonce raw = .ok b) hperm hall
  obtain ⟨nonces, hspawn⟩ := exists_spawn (produced_range' hplan.read) hprocessed
  refine ⟨nonces, processed, rest, hspawn, ?_, ?_⟩
  · rw [hsnd] at hsame
    refine List.Perm.trans ?_ hsame
    rw [← List.append_assoc]
    exact (List.perm_append_comm.trans hdone).append_right rest
  · have hlength := hrest.length_eq
    rw [← hmore]
    simp only [List.length_append] at hlength ⊢
    omega

/-- Blocks that can be written can be written up to each of them. -/
theorem writeBlocks_prefix {bs cs : List ProcessedBlock} {arch arch' : ArchiveWriter} (hpre : bs <+: cs)
    (h : writeBlocks cs arch = (.ok (), arch')) : ∃ mid, writeBlocks bs arch = (.ok (), mid) := by
  obtain ⟨rest, rfl⟩ := hpre
  rw [writeBlocks_append] at h
  obtain ⟨_, mid, hbs, _⟩ := Act.bind_eq_ok.1 h
  exact ⟨mid, hbs⟩

/-- **What the writer has received it has written**, when it is the beginning of what can be written. -/
theorem exists_absorb {processed coming : List ProcessedBlock} {n : Nat} {arch arch' : ArchiveWriter}
    (hids : processed.map ProcessedBlock.id = List.range' n processed.length)
    (hperm : (received ++ coming).Perm processed) (h : writeBlocks processed arch = (.ok (), arch')) :
    ∃ r mid, absorb received ([], n) arch = (.ok r, mid) := by
  obtain ⟨mid, hmid⟩ := writeBlocks_prefix (Resequence.feed_prefix hids hperm) h
  rw [absorb_eq, Act.bind_of_ok hmid]
  exact ⟨_, mid, rfl⟩

/-! ## Nothing fails -/

/-- Nothing has failed, and the call is not over before the pool and the writer are. -/
structure Calm (s : State) : Prop where
  main : s.main.calm = true
  failures : s.pool.failures = []
  writer : ∀ e arch, s.writer ≠ .ended (.error e) arch
  ended : s.main.over = true → s.pool.result.isSome ∧ ∃ arch, s.writer = .ended (.ok ()) arch

theorem calm_spawn (job : Job) (queue : List Path) (path : Option Bytes) : Calm (spawn job queue path) where
  main := rfl
  failures := rfl
  writer _ _ h := by cases h
  ended h := by cases h

section
variable {reader : ReadState}

/-- The main thread is at work as long as the writer is. -/
theorem Calm.not_over (hc : Calm s) {q : List ProcessedBlock} {e : Nat} {arch : ArchiveWriter}
    (hwriter : s.writer = .running q e arch) : s.main.over = false := by
  cases hover : s.main.over with
  | false => rfl
  | true =>
    obtain ⟨_, arch', hended⟩ := hc.ended hover
    rw [hwriter] at hended
    cases hended

/-- The writer is at work as long as the pool is. -/
theorem Calm.running (h : Inv K job queue handed received s) (hc : Calm s) (hresult : s.pool.result = none) :
    s.main.over = false ∧ ∃ q e arch, s.writer = .running q e arch := by
  have hover : s.main.over = false := by
    cases hover : s.main.over with
    | false => rfl
    | true =>
      have hsome := (hc.ended hover).1
      rw [hresult] at hsome
      cases hsome
  refine ⟨hover, ?_⟩
  have hmailed := h.mailed
  unfold Mailed at hmailed
  have hwriter : ∀ arch, s.writer ≠ .ended (.ok ()) arch := by
    cases hm : s.main with
    | next | reading | done | joining =>
      rw [hm] at hmailed
      exact hmailed.2
    | waiting =>
      rw [hm] at hmailed
      exact absurd hmailed.1 (by rw [hresult]; simp)
    | cleanup e =>
      have := hc.main
      rw [hm] at this
      cases this
    | returned r => rw [hm] at hover; cases hover
    | panicked m => rw [hm] at hover; cases hover
  cases hw : s.writer with
  | running q e arch => exact ⟨q, e, arch, rfl⟩
  | ended result arch =>
    cases result with
    | ok _ => exact absurd hw (hwriter arch)
    | error e => exact absurd hw (hc.writer e arch)

/-- **A block the pool works on can be processed.** -/
theorem Inv.exists_work (hplan : job.Plan K queue reader) (h : Inv K job queue handed received s) (hc : Calm s)
    {b : RawBlock} (hb : b ∈ s.pool.working) (nonce : Nonce) : ∃ p, job.work K nonce b = .ok p := by
  obtain ⟨hover, _⟩ := hc.running h (h.running (.inl (List.ne_nil_of_mem hb)))
  obtain ⟨pairs, _, hraw, _⟩ := h.accounts hc.failures
  have hhanded : b ∈ handed :=
    hraw.subset (List.mem_append_left _ (List.mem_append_right _ hb))
  have hproduced : b ∈ reader.produced :=
    (h.reading.planned hplan hc.main hover).subset (List.mem_append_left _ hhanded)
  obtain ⟨processed, hall⟩ := hplan.works fun _ => nonce
  obtain ⟨p, _, hp⟩ := (Except.mapM_eq_ok.1 hall).exists_of_mem hproduced
  exact ⟨p, hp⟩

/-- The numbers of the planned blocks. -/
theorem Job.Plan.ids (hnew : job.archive.index.block = []) (hplan : job.Plan K queue reader) {nonces : Nat → Nonce}
    {processed : List ProcessedBlock} (hspawn : job.spawn K reader.produced nonces = .ok processed) :
    processed.map ProcessedBlock.id = List.range' job.archive.index.block.length processed.length := by
  rw [hnew, spawnWorkers_ids hspawn, produced_ids hplan.read, (Except.mapM_eq_ok.1 hspawn).length_eq,
    List.range_eq_range']
  rfl

/-- **A message the writer receives does not make it fail.** -/
theorem Inv.receive_ok (hnew : job.archive.index.block = []) (hplan : job.Plan K queue reader)
    (h : Inv K job queue handed received s) (hc : Calm s) {q : List ProcessedBlock} {e : Nat} {arch : ArchiveWriter}
    {message : WriterMessage} {messages : List WriterMessage} (hwriter : s.writer = .running q e arch)
    (hmessages : s.messages = message :: messages) :
    ∃ r arch', receiveMessage K job.indexNonce message q e arch = (.ok r, arch') := by
  have hover := hc.not_over hwriter
  have habsorbed := h.absorbed q e arch hwriter
  have hplanned := h.reading.planned hplan hc.main hover
  cases message with
  | block b =>
    have hacc : Accounted K job s.pool messages handed (received ++ [b]) :=
      (hmessages ▸ h.accounts hc.failures).receive
    obtain ⟨nonces, processed, rest, hspawn, hperm, _⟩ :=
      hacc.planned hplan ((List.prefix_append _ _).trans hplanned)
    obtain ⟨mid, _, hblocks, _⟩ := hplan.writes nonces processed hspawn
    obtain ⟨r, arch', habsorb⟩ := exists_absorb (hplan.ids hnew hspawn) hperm hblocks
    rw [absorb_concat, Act.bind_of_ok habsorbed] at habsorb
    exact ⟨some r, arch', Act.bind_of_ok habsorb⟩
  | finalize files total =>
    have hmailed := h.mailed
    unfold Mailed at hmailed
    cases hm : s.main with
    | next | reading | done | joining =>
      rw [hm] at hmailed
      obtain ⟨b, hb⟩ := hmailed.1 (.finalize files total) (by rw [hmessages]; exact List.mem_cons_self)
      cases hb
    | waiting =>
      simp only [hm, hwriter] at hmailed
      obtain ⟨hresult, bs, hbs⟩ := hmailed
      rw [hmessages] at hbs
      cases bs with
      | cons b bs => cases hbs
      | nil =>
        cases hbs
        -- everything that was planned has been received
        have hreading := h.reading
        unfold Reading at hreading
        rw [hm] at hreading
        obtain ⟨hread, hhanded⟩ := hreading
        cases hplan.read.symm.trans hread
        have hpool := h.pool
        unfold PoolEnd at hpool
        rw [hresult] at hpool
        obtain ⟨hworking, hsending, hclosed, hraw, _⟩ := hpool
        rw [h.outbox hclosed, List.append_nil] at hhanded
        obtain ⟨nonces, processed, rest, hspawn, hperm, hlength⟩ :=
          (h.accounts hc.failures).planned hplan (hhanded ▸ List.prefix_refl _)
        rw [hhanded, hraw, hworking] at hlength
        obtain rfl : rest = [] := List.eq_nil_of_length_eq_zero (by simpa using hlength)
        rw [hsending, hmessages] at hperm
        simp only [blocksOf_finalize, blocksOf_nil, List.append_nil] at hperm
        rw [absorb_perm (hplan.ids hnew hspawn) hperm] at habsorbed
        obtain ⟨_, mid, hblocks, hpure⟩ := Act.bind_eq_ok.1 habsorbed
        cases hpure
        obtain ⟨_, arch', hblocks', hfinal⟩ := hplan.writes nonces processed hspawn
        cases hblocks.symm.trans hblocks'
        exact ⟨none, arch', Act.bind_of_ok hfinal⟩
    | cleanup e =>
      have := hc.main
      rw [hm] at this
      cases this
    | returned r => rw [hm] at hover; cases hover
    | panicked m => rw [hm] at hover; cases hover

/-- A step of the pool that is no failure. -/
theorem Calm.of_pool (hc : Calm s) {pool : Pool} {messages : List WriterMessage} (hfailures : pool.failures = [])
    (hresult : s.pool.result.isSome → pool.result.isSome) :
    Calm { s with pool := pool, messages := messages } :=
  ⟨hc.main, hfailures, hc.writer, fun hover => ⟨hresult (hc.ended hover).1, (hc.ended hover).2⟩⟩

/-- A step of the writer that is no failure. -/
theorem Calm.of_writer (hc : Calm s) (hover : s.main.over = false) {writer : Writer}
    (hwriter : ∀ e arch, writer ≠ .ended (.error e) arch) {messages : List WriterMessage} {path : Option Bytes} :
    Calm { s with messages := messages, writer := writer, path := path } :=
  ⟨hc.main, hc.failures, hwriter, fun h => by rw [hover] at h; cases h⟩

/-- The main thread goes on. -/
theorem Calm.of_main (hc : Calm s) {main : Main} {r : ReadState} {outbox : List RawBlock}
    {messages : List WriterMessage} (hcalm : main.calm = true) (hover : main.over = false) :
    Calm { s with main := main, reader := r, outbox := outbox, messages := messages } :=
  ⟨hcalm, hc.failures, hc.writer, fun h => by rw [hover] at h; cases h⟩

theorem calm_main (hplan : job.Plan K queue reader) (h : Inv K job queue handed received s) (hc : Calm s)
    (hs : mainStep job s = some s') : Calm s' := by
  have hread := hplan.read
  have hreading := h.reading
  have hmailed := h.mailed
  have hpool := h.pool
  have hcalm := hc.main
  obtain ⟨path, main, r, outbox, pool, messages, writer⟩ := s
  unfold mainStep at hs
  cases outbox with
  | cons b outbox =>
    cases hs
    exact ⟨hcalm, (Pool.offer_failures b pool).trans hc.failures, hc.writer, fun hover =>
      ⟨by simpa using (hc.ended hover).1, (hc.ended hover).2⟩⟩
  | nil =>
    cases main with
    | next ps =>
      cases ps with
      | nil =>
        cases hs
        exact hc.of_main rfl rfl
      | cons p ps =>
        have hrest := hreading.1
        rw [hread, readFiles_openPath] at hrest
        simp only at hs hrest
        split at hs
        · cases hs
          exact hc.of_main rfl rfl
        · cases hs
          exact hc.of_main rfl rfl
        · rename_i hopen
          rw [hopen] at hrest
          cases hrest
        · rename_i hopen
          rw [hopen] at hrest
          cases hrest
    | reading p pieces err ps =>
      cases pieces with
      | nil =>
        cases err with
        | none =>
          cases hs
          exact hc.of_main rfl rfl
        | some e =>
          have hrest := hreading.1
          rw [hread] at hrest
          cases hrest
      | cons d pieces =>
        cases hs
        exact hc.of_main rfl rfl
    | done readResult =>
      cases readResult with
      | ok _ =>
        cases hs
        exact hc.of_main rfl rfl
      | error e => cases hcalm
    | joining readResult =>
      cases readResult with
      | error e => cases hcalm
      | ok _ =>
        unfold PoolEnd at hpool
        simp only at hs hpool
        cases hresult : pool.result with
        | none => rw [hresult] at hs; cases hs
        | some result =>
          rw [hresult] at hs hpool
          cases result with
          | error e => exact absurd hc.failures hpool.2.2
          | ok _ =>
            cases writer with
            | running q e arch =>
              cases hs
              exact hc.of_main rfl rfl
            | ended result arch =>
              cases result with
              | ok _ => exact absurd rfl (hmailed.2 arch)
              | error e => exact absurd rfl (hc.writer e arch)
    | waiting =>
      cases writer with
      | running q e arch => cases hs
      | ended result arch =>
        cases result with
        | error e => exact absurd rfl (hc.writer e arch)
        | ok _ =>
          cases hs
          have hresult : pool.result = some (.ok ()) := hmailed.1
          exact ⟨rfl, hc.failures, hc.writer, fun _ => ⟨by simp [hresult], arch, rfl⟩⟩
    | cleanup e => cases hcalm
    | returned result => cases hs
    | panicked message => cases hs

/-- **A step that is no failure keeps the calm.** -/
theorem calm_step (hnew : job.archive.index.block = []) (hplan : job.Plan K queue reader)
    (h : Inv K job queue handed received s) (hc : Calm s) {move : Move} (hmove : move.fails = false)
    (hs : step K job s move = some s') : Calm s' := by
  cases move with
  | main => exact calm_main hplan h hc hs
  | take =>
    simp only [step] at hs
    split at hs
    · cases hs
      exact hc.of_pool hc.failures id
    · cases hs
  | process b nonce =>
    simp only [step] at hs
    split at hs
    · rename_i hb
      obtain ⟨p, hp⟩ := h.exists_work hplan hc hb nonce
      rw [hp] at hs
      cases hs
      exact hc.of_pool hc.failures id
    · cases hs
  | send b =>
    simp only [step] at hs
    split at hs
    · rename_i hb
      obtain ⟨_, q, e, arch, hwriter⟩ := hc.running h (h.running (.inr (List.ne_nil_of_mem hb)))
      split at hs
      · cases hs
        exact hc.of_pool hc.failures id
      · rename_i hended
        rw [hwriter] at hended
        cases hended
    · cases hs
  | failProcess b e => cases hmove
  | failSend b e => cases hmove
  | panicWriter message => cases hmove
  | endPool result =>
    simp only [step] at hs
    split at hs
    · cases hs
      exact hc.of_pool hc.failures fun _ => rfl
    · cases hs
  | receive =>
    simp only [step] at hs
    split at hs
    · rename_i q e arch message messages hwriter hmessages
      have hover := hc.not_over hwriter
      obtain ⟨r, arch', hreceive⟩ := h.receive_ok hnew hplan hc hwriter hmessages
      rw [hreceive] at hs
      cases r with
      | some r =>
        cases hs
        exact hc.of_writer hover (by simp)
      | none =>
        cases hs
        exact hc.of_writer hover (by simp)
    · cases hs
  | disconnect =>
    simp only [step] at hs
    split at hs
    · rename_i q e arch hwriter _
      rw [if_neg (by simp [hc.not_over hwriter])] at hs
      cases hs
    · cases hs

/-- **A schedule without a failure keeps the calm.** -/
theorem calm_run (hnew : job.archive.index.block = []) (hplan : job.Plan K queue reader) :
    ∀ {moves : List Move} {handed : List RawBlock} {received : List ProcessedBlock} {s s' : State},
    (∀ move ∈ moves, move.fails = false) → Inv K job queue handed received s → Calm s → run K job moves s = some s' →
    Calm s'
  | [], _, _, _, _, _, _, hc, hs => by
    cases hs
    exact hc
  | move :: moves, _, _, s, _, hmoves, h, hc, hs => by
    obtain ⟨s₁, hstep, hrun⟩ := Option.bind_eq_some_iff.1 hs
    obtain ⟨_, _, h₁⟩ := inv_step hnew h hstep
    have hc₁ := calm_step hnew hplan h hc (hmoves move List.mem_cons_self) hstep
    exact calm_run hnew hplan (fun m hm => hmoves m (List.mem_cons_of_mem _ hm)) h₁ hc₁ hrun

end

/-- A call that is over without a failure has returned `Ok`. -/
theorem Calm.returned (hc : Calm s) (hover : s.main.over = true) : s.main = .returned (.ok ()) := by
  have hmain := hc.main
  cases hm : s.main with
  | returned r =>
    cases r with
    | ok _ => rfl
    | error e => rw [hm] at hmain; cases hmain
  | panicked m => rw [hm] at hmain; cases hmain
  | next | reading | done | joining | waiting | cleanup => rw [hm] at hover; cases hover

/-- **The threads add no failure of their own.** Where the sequential run succeeds whatever nonces are drawn, a schedule
in which nothing fails from outside never ends in an error or a panic: it has returned `Ok`, or some thread can go on
without a failure. -/
theorem compress_succeeds (hnew : job.archive.index.block = []) (hall : job.Succeeds K queue) {moves : List Move}
    (hmoves : ∀ move ∈ moves, move.fails = false)
    (hrun : run K job moves (spawn job queue (some job.archive.writer.bytes)) = some s) :
    s.main = .returned (.ok ()) ∨ ∃ move s', move.fails = false ∧ step K job s move = some s' := by
  obtain ⟨reader, hplan⟩ := hall.plan hnew
  obtain ⟨_, _, hinv⟩ := inv_run hnew (inv_spawn job queue) hrun
  have hcalm := calm_run hnew hplan hmoves (inv_spawn job queue) (calm_spawn job queue _) hrun
  cases hover : s.main.over with
  | false => exact .inr (hinv.exists_step hover)
  | true => exact .inl (hcalm.returned hover)

/-- Crates that store, and encode every index with no byte. -/
def Crates.blank : Crates := { Crates.tabled [Header.stored 2] [] with indexToVec := fun _ => some [] }

/-- The small job succeeds with them. -/
theorem small_succeeds : Job.small.Succeeds Crates.blank [[.normal "src", .normal "a"]] := by
  rintro ⟨nonces, indexNonce⟩ rfl
  let src : Source := ⟨[.normal "a"], ⟨.file, 3, 0, 0o644⟩, none, [1, 2, 3]⟩
  have hchunks : Chunk.chunks 2 [1, 2, 3] = [[1, 2], [(3 : UInt8)]] := by decide +kernel
  have hobserve : observe Job.small.os Job.small.root 2 [.normal "src", .normal "a"] = .ok src := by
    have hread : (OpenFile.ofContent [1, 2, 3]).reads 2 = [[1, 2], [(3 : UInt8)]] := hchunks
    show Except.ok (Source.mk _ _ none ((OpenFile.ofContent [1, 2, 3]).reads 2).flatten) = _
    rw [hread]
    rfl
  obtain ⟨processed, mid, arch, hworkers, hblocks, hfinal⟩ : ∃ processed mid arch,
      spawnWorkers Crates.blank (numbered 0 [[1, 2], [3]]) nonces .none (Vector.replicate 16 0) .none 0
        = .ok processed ∧
      writeBlocks processed Job.small.archive = (.ok (), mid) ∧
      finalize Crates.blank (Vector.replicate 12 0) (Source.entries 0 [src]) 3 mid = (.ok (), arch) :=
    ⟨_, _, _, rfl, rfl, rfl⟩
  rw [← hchunks] at hworkers
  exact ⟨arch, (compressFiles_ok_iff rfl).2 ⟨[src], processed, .cons hobserve .nil,
    ⟨.inl (by decide), hworkers, mid, hblocks, hfinal⟩⟩⟩

/-- Two blocks in a schedule without a failure, up to the end of the call. -/
theorem compress_succeeds_small : ∃ s, run Crates.blank Job.small overtaking State.small = some s ∧
    (s.main = .returned (.ok ()) ∨ ∃ move s', move.fails = false ∧ step Crates.blank Job.small s move = some s') := by
  have hshown : (run Crates.blank Job.small overtaking State.small).isSome = true := by decide +kernel
  obtain ⟨s, hrun⟩ := Option.isSome_iff_exists.1 hshown
  exact ⟨s, hrun, compress_succeeds rfl small_succeeds (by decide) hrun⟩

end Threads

end Cryo
