import Cryo.Completeness
import Cryo.EnginePool
import Cryo.Lib.Simulation

/-!
# The pool of engines refines the pool

A pool whose threads share engines under a lock shows one that has neither (`Shows`): what a thread does with its block
up to the moment it gives its engine back is not seen there, and then the block leaves the tasks with the result of a new
engine, or with a failure (`step_matches`). So what holds of `Threads` holds with engines.

* `pooled_terminates`, `pooled_succeeds`: no schedule goes on for ever, no thread waits for ever for the lock, and the
  locks add no failure of their own.
* `pooled_refines`: what a call has written is what the run in one thread writes, with a new engine for every block.
-/

namespace Cryo

namespace Engines

open Posix
open Threads (Job Main Writer)

variable {K : Crates} {job : Job} {s s' : State K}

/-! ## The pool is shown by one without engines -/

/-- A pool shows another that has the same blocks, in whatever order they are worked on. -/
def Shows (s : State K) (t : Threads.State) : Prop :=
  ∃ working sending, working.Perm s.pool.working ∧ sending.Perm s.pool.sending ∧ t = s.view working sending

/-- The steps of a thread that the other pool does not see, until it gives its engine back. -/
def Task.silent : Task K → Nat
  | .starting _ => 3
  | .creating _ => 2
  | .processing .. => 1
  | _ => 0

def Pool.silent (pool : Pool K) : Nat := (pool.tasks.map Task.silent).sum

/-- A thread with a raw block has nothing to send. -/
theorem Task.processed_of_raw {task : Task K} {b : RawBlock} (hraw : task.raw = [b]) : task.processed = [] := by
  cases task <;> first | rfl | cases hraw

/-- A thing is among others, which are those without it. -/
theorem erase_perm {α : Type} [DecidableEq α] {a : α} {l l' : List α} (h : l.Perm (a :: l')) :
    a ∈ l ∧ (l.erase a).Perm l' :=
  ⟨h.mem_iff.2 List.mem_cons_self, by simpa using h.erase a⟩

section
variable {t : Threads.State} {i : Nat} {task : Task K} {b : RawBlock} {clean : Prop}

/-- A thread goes on with its raw block. -/
theorem Shows.silent (hshows : Shows s t) (htask : s.pool.tasks[i]? = some task) (hraw : task.raw = [b])
    {task' : Task K} (hraw' : task'.raw = [b]) (shared : Shared K) :
    Shows { s with pool := s.pool.advance i (.ok task', shared) } t := by
  obtain ⟨working, sending, hworking, hsending, rfl⟩ := hshows
  refine ⟨working, sending, hworking.trans ?_, hsending.trans ?_, rfl⟩
  · exact (Gather.flatMap_set_of_eq htask (hraw'.trans hraw.symm)).symm
  · exact (Gather.flatMap_set_of_eq htask
      ((Task.processed_of_raw hraw').trans (Task.processed_of_raw hraw).symm)).symm

/-- A thread fails with its raw block. -/
theorem Shows.fails (hshows : Shows s t) (htask : s.pool.tasks[i]? = some task) (hraw : task.raw = [b]) (h : Halt)
    (shared : Shared K) : b ∈ t.pool.working ∧
      Shows { s with pool := s.pool.advance i (.error h, shared) } { t with
        pool := { t.pool with working := t.pool.working.erase b, failures := h :: t.pool.failures } } := by
  obtain ⟨working, sending, hworking, hsending, rfl⟩ := hshows
  have hlose := Gather.flatMap_set_lose (f := Task.raw) htask hraw (b := .idle) rfl
  obtain ⟨hmem, herase⟩ := erase_perm (hworking.trans hlose.symm)
  refine ⟨hmem, working.erase b, sending, herase, hsending.trans ?_, rfl⟩
  exact (Gather.flatMap_set_of_eq htask (Task.processed_of_raw hraw).symm).symm

/-- A thread has processed its raw block. -/
theorem Shows.processed (hshows : Shows s t) (htask : s.pool.tasks[i]? = some task) (hraw : task.raw = [b])
    (p : ProcessedBlock) (shared : Shared K) : b ∈ t.pool.working ∧
      Shows { s with pool := s.pool.advance i (.ok (.sending p), shared) } { t with
        pool := { t.pool with working := t.pool.working.erase b, sending := p :: t.pool.sending } } := by
  obtain ⟨working, sending, hworking, hsending, rfl⟩ := hshows
  have hlose := Gather.flatMap_set_lose (f := Task.raw) htask hraw (b := .sending p) rfl
  obtain ⟨hmem, herase⟩ := erase_perm (hworking.trans hlose.symm)
  refine ⟨hmem, working.erase b, p :: sending, herase, (hsending.cons p).trans ?_, rfl⟩
  exact (Gather.flatMap_set_gain htask (Task.processed_of_raw hraw) rfl).symm

/-- A thread is done with its processed block. -/
theorem Shows.sent (hshows : Shows s t) {p : ProcessedBlock} (htask : s.pool.tasks[i]? = some (.sending p)) :
    p ∈ t.pool.sending ∧ t.pool.working.Perm (s.pool.tasks.set i .idle |>.flatMap Task.raw) ∧
      (t.pool.sending.erase p).Perm (s.pool.tasks.set i .idle |>.flatMap Task.processed) := by
  obtain ⟨working, sending, hworking, hsending, rfl⟩ := hshows
  have hlose := Gather.flatMap_set_lose (f := Task.processed) htask rfl (b := .idle) rfl
  obtain ⟨hmem, herase⟩ := erase_perm (hsending.trans hlose.symm)
  exact ⟨hmem, hworking.trans (Gather.flatMap_set_of_eq (f := Task.raw) (b := .idle) htask rfl).symm, herase⟩

end

/-- The pool is less silent, or the one it shows takes a step. -/
def Matches (job : Job) (clean : Prop) (s s' : State K) (t : Threads.State) : Prop :=
  (Shows s' t ∧ s'.pool.silent < s.pool.silent) ∨
    ∃ move t', (clean → move.fails = false) ∧ Threads.step K job t move = some t' ∧ Shows s' t' ∧
      s'.pool.silent ≤ s.pool.silent + 3

section
variable {t : Threads.State} {i : Nat} {task : Task K} {b : RawBlock} {clean : Prop} {calm : Bool}

theorem silent_set (htask : s.pool.tasks[i]? = some task) (task' : Task K) :
    task.silent + ((s.pool.tasks.set i task').map Task.silent).sum = task'.silent + s.pool.silent :=
  Gather.sum_set Task.silent htask task'

/-- A thread that fails is matched by a task that fails. -/
theorem Matches.of_failure (hshows : Shows s t) (htask : s.pool.tasks[i]? = some task) (hraw : task.raw = [b]) (h : Halt)
    (shared : Shared K) (hclean : clean → ∃ e nonce, h = .err e ∧ job.work K nonce b = .error e) :
    Matches job clean s { s with pool := s.pool.advance i (.error h, shared) } t := by
  obtain ⟨hmem, hshows'⟩ := hshows.fails htask hraw h shared
  have hsilent := silent_set htask .idle
  have hle : (s.pool.advance i (.error h, shared)).silent ≤ s.pool.silent + 3 := by
    show ((s.pool.tasks.set i .idle).map Task.silent).sum ≤ _
    simp only [Task.silent] at hsilent
    omega
  by_cases hc : clean
  · obtain ⟨e, nonce, rfl, hwork⟩ := hclean hc
    refine .inr ⟨.process b nonce, _, fun _ => rfl, ?_, hshows', hle⟩
    simp only [Threads.step, if_pos hmem, hwork]
  · refine .inr ⟨.failProcess b h, _, fun hc' => absurd hc' hc, ?_, hshows', hle⟩
    simp only [Threads.step, if_pos hmem]

/-- **A step of a thread with a raw block is matched.** -/
theorem Task.Step.matches {next : Except Halt (Task K)} {shared : Shared K} (h : task.Step job calm s.pool.shared next shared)
    (hcalm : clean → calm = true) (hsound : s.pool.Sound job clean) (hshows : Shows s t)
    (htask : s.pool.tasks[i]? = some task) :
    Matches job clean s { s with pool := s.pool.advance i (next, shared) } t := by
  have hquiet : ∀ {b : RawBlock} {task' : Task K}, task.raw = [b] → task'.raw = [b] → task'.silent < task.silent →
      next = .ok task' → Matches job clean s { s with pool := s.pool.advance i (next, shared) } t := by
    rintro b task' hraw hraw' hless rfl
    refine .inl ⟨hshows.silent htask hraw hraw' shared, ?_⟩
    have hsilent := silent_set htask task'
    show ((s.pool.tasks.set i task').map Task.silent).sum < _
    omega
  have hownsound := hsound.tasks task (List.mem_of_getElem? htask)
  have hlock := hsound.shared.lock
  generalize hs : s.pool.shared = before at h
  cases h with
  | pop => exact hquiet rfl rfl (by simp [Task.silent]) rfl
  | lock => exact hquiet rfl rfl (by simp [Task.silent]) rfl
  | create => exact hquiet rfl rfl (by simp [Task.silent]) rfl
  | process => exact hquiet rfl rfl (by simp [Task.silent]) rfl
  | giveBack =>
    rename_i b engine p engines made
    obtain ⟨nonce, hwork⟩ := hownsound.2 (.inr rfl)
    obtain ⟨hmem, hshows'⟩ := hshows.processed htask rfl p ⟨engine :: engines, .free, made⟩
    have hsilent := silent_set htask (.sending p)
    refine .inr ⟨.process b nonce, _, fun _ => rfl, ?_, hshows', ?_⟩
    · simp only [Threads.step, if_pos hmem, hwork]
    · show ((s.pool.tasks.set i (.sending p)).map Task.silent).sum ≤ _
      simp only [Task.silent] at hsilent
      omega
  | createFails hnew =>
    refine .of_failure hshows htask rfl _ _ fun _ => ⟨_, Vector.replicate 12 0, rfl, ?_⟩
    unfold Job.work workerTask
    rw [hnew]
    rfl
  | giveBackFailed =>
    refine .of_failure hshows htask rfl _ _ fun hclean => ?_
    obtain ⟨nonce, hwork⟩ := hownsound.2 (.inl hclean)
    exact ⟨_, nonce, rfl, hwork⟩
  | poisoned hraw => exact .of_failure hshows htask hraw _ _ fun hclean => absurd (by rw [hs]) (hlock hclean)
  | broken hraw => exact .of_failure hshows htask hraw _ _ fun hclean => absurd (hcalm hclean) (by simp)

/-- **A step of the pool is matched.** -/
theorem PoolStep.matches (h : PoolStep job s calm s') (hcalm : clean → calm = true) (hsound : s.pool.Sound job clean)
    (hshows : Shows s t) : Matches job clean s s' t := by
  cases h with
  | work htask hstep => exact hstep.matches hcalm hsound hshows htask
  | take hresult hraw htask =>
    rename_i i b raw
    obtain ⟨working, sending, hworking, hsending, rfl⟩ := hshows
    have hgain := Gather.flatMap_set_gain (f := Task.raw) htask rfl (b := .starting b) rfl
    have hsame := Gather.flatMap_set_of_eq (f := Task.processed) htask (b := .starting b) rfl
    have hsilent := silent_set htask (.starting b)
    refine .inr ⟨.take, _, fun _ => rfl, ?_, ⟨b :: working, sending, (hworking.cons b).trans hgain.symm,
      hsending.trans hsame.symm, rfl⟩, ?_⟩
    · simp only [Threads.step, State.view, Pool.view, hresult, hraw]
    · show ((s.pool.tasks.set i (.starting b)).map Task.silent).sum ≤ _
      simp only [Task.silent] at hsilent
      omega
  | send htask hwriter =>
    rename_i i b q e arch
    obtain ⟨hmem, hworking, hsending⟩ := hshows.sent htask
    obtain ⟨working, sending, _, _, rfl⟩ := hshows
    have hsilent := silent_set htask .idle
    refine .inr ⟨.send b, _, fun _ => rfl, ?_, ⟨working, sending.erase b, hworking, hsending, rfl⟩, ?_⟩
    · simp only [Threads.step, if_pos hmem]
      simp only [State.view, hwriter]
      rfl
    · show ((s.pool.tasks.set i .idle).map Task.silent).sum ≤ _
      simp only [Task.silent] at hsilent
      omega
  | sendFails htask hfails =>
    rename_i i b
    obtain ⟨hmem, hworking, hsending⟩ := hshows.sent htask
    obtain ⟨working, sending, _, _, rfl⟩ := hshows
    have hsilent := silent_set htask .idle
    have hle : ((s.pool.tasks.set i .idle).map Task.silent).sum ≤ s.pool.silent + 3 := by
      simp only [Task.silent] at hsilent
      omega
    have hshows' : Shows { s with pool := s.pool.advance i (.error (.err .threadError), s.pool.shared) } _ :=
      ⟨working, sending.erase b, hworking, hsending, rfl⟩
    by_cases hclean : clean
    · obtain ⟨result, arch, hwriter⟩ := hfails.resolve_left (by rw [hsound.sender hclean]; simp)
      refine .inr ⟨.send b, _, fun _ => rfl, ?_, hshows', hle⟩
      simp only [Threads.step, if_pos hmem]
      simp only [State.view, hwriter]
      rfl
    · refine .inr ⟨.failSend b (.err .threadError), _, fun hc => absurd hc hclean, ?_, hshows', hle⟩
      simp only [Threads.step, if_pos hmem]
      rfl
  | panicSend htask =>
    rename_i i b message
    obtain ⟨hmem, hworking, hsending⟩ := hshows.sent htask
    obtain ⟨working, sending, _, _, rfl⟩ := hshows
    have hsilent := silent_set htask .idle
    refine .inr ⟨.failSend b (.panic message), _, fun hclean => absurd (hcalm hclean) (by simp), ?_,
      ⟨working, sending.erase b, hworking, hsending, rfl⟩, ?_⟩
    · simp only [Threads.step, if_pos hmem]
      rfl
    · show ((s.pool.tasks.set i .idle).map Task.silent).sum ≤ _
      simp only [Task.silent] at hsilent
      omega
  | endPool hresult hworking hsending hcan =>
    rename_i result
    obtain ⟨working, sending, hw, hs, rfl⟩ := hshows
    rw [hworking] at hw
    rw [hsending] at hs
    obtain rfl := hw.eq_nil
    obtain rfl := hs.eq_nil
    refine .inr ⟨.endPool result, _, fun _ => rfl, ?_, ⟨[], [], ?_, ?_, rfl⟩, Nat.le_add_right _ 3⟩
    · rw [hworking, hsending] at hcan
      exact if_pos ⟨by simp [State.view, Pool.view, hresult], rfl, rfl, hcan⟩
    · exact hworking ▸ .refl _
    · exact hsending ▸ .refl _

end

/-! ### The main thread and the writer -/

/-- The state with these blocks in the pool. -/
def withTasks (working : List RawBlock) (sending : List ProcessedBlock) (t : Threads.State) : Threads.State :=
  { t with pool := { t.pool with working := working, sending := sending } }

/-- The main thread does not see what the pool works on. -/
theorem mainStep_withTasks (working : List RawBlock) (sending : List ProcessedBlock) (t : Threads.State) :
    Threads.mainStep job (withTasks working sending t) = (Threads.mainStep job t).map (withTasks working sending) := by
  obtain ⟨path, main, reader, outbox, ⟨raw, _, _, failures, result⟩, messages, writer⟩ := t
  unfold Threads.mainStep
  cases outbox with
  | cons b outbox => cases result <;> rfl
  | nil =>
    cases main with
    | next ps =>
      cases ps with
      | nil => rfl
      | cons p ps =>
        simp only [withTasks]
        split <;> rfl
    | reading p pieces err ps =>
      cases pieces with
      | cons d pieces => rfl
      | nil => cases err <;> rfl
    | joining readResult =>
      cases result with
      | none => rfl
      | some result =>
        simp only [withTasks]
        generalize Threads.joined result = joined
        cases joined <;> cases readResult <;> cases writer <;> rfl
    | waiting =>
      cases writer with
      | running => rfl
      | ended result arch =>
        simp only [withTasks]
        split <;> rfl
    | _ => rfl

theorem outer_withTasks {move : Move} {m : Threads.Move} (houter : move.outer = some m) (working : List RawBlock)
    (sending : List ProcessedBlock) (t : Threads.State) :
    Threads.step K job (withTasks working sending t) m = (Threads.step K job t m).map (withTasks working sending) := by
  obtain ⟨path, main, reader, outbox, pool, messages, writer⟩ := t
  cases move with
  | main =>
    cases houter
    exact mainStep_withTasks working sending _
  | receive =>
    cases houter
    simp only [Threads.step, withTasks]
    cases writer <;> cases messages <;> try rfl
    simp only
    split <;> rfl
  | panicWriter message =>
    cases houter
    cases writer <;> rfl
  | disconnect =>
    cases houter
    simp only [Threads.step, withTasks]
    cases writer <;> cases messages <;> try rfl
    by_cases hend : main.over = true ∧ pool.result.isSome = true
    · simp [hend, withTasks]
    · simp [hend]
  | _ => cases houter

/-- Of the pool only the channel of raw blocks changes. -/
theorem outer_pool {move : Move} {m : Threads.Move} (houter : move.outer = some m) {t v : Threads.State}
    (h : Threads.step K job t m = some v) : v.pool = { t.pool with raw := v.pool.raw } := by
  have hoffer : ∀ (b : RawBlock) (pool : Threads.Pool), pool.offer b = { pool with raw := (pool.offer b).raw } := by
    intro b pool
    unfold Threads.Pool.offer
    split <;> rfl
  cases move with
  | main =>
    cases houter
    replace h : Threads.mainStep job t = some v := h
    unfold Threads.mainStep at h
    repeat' split at h
    all_goals cases h
    all_goals first | rfl | exact hoffer _ _
  | receive | panicWriter | disconnect =>
    cases houter
    simp only [Threads.step] at h
    repeat' split at h
    all_goals cases h
    all_goals rfl
  | _ => cases houter

/-- **A step of the main thread or of the writer** is one of the state that is shown, and back. -/
theorem outer_shows {move : Move} {m : Threads.Move} (houter : move.outer = some m) {t : Threads.State}
    (hshows : Shows s t) : (∀ s', step job move s = some s' → s'.pool.tasks = s.pool.tasks ∧
        s'.pool.shared = s.pool.shared ∧ s'.pool.senderPoisoned = s.pool.senderPoisoned ∧
        ∃ t', Threads.step K job t m = some t' ∧ Shows s' t') ∧
      ((Threads.step K job t m).isSome → (step job move s).isSome) := by
  obtain ⟨working, sending, hworking, hsending, rfl⟩ := hshows
  have hview : s.view working sending = withTasks working sending (s.view s.pool.working s.pool.sending) := rfl
  rw [step_outer houter, hview, outer_withTasks houter, Option.isSome_map, Option.isSome_map]
  refine ⟨fun s' hs => ?_, id⟩
  obtain ⟨v, hv, rfl⟩ := Option.map_eq_some_iff.1 hs
  refine ⟨rfl, rfl, rfl, withTasks working sending v, by rw [hv]; rfl, working, sending, hworking, hsending, ?_⟩
  obtain ⟨path, main, reader, outbox, ⟨raw, _, _, failures, result⟩, messages, writer⟩ := v
  obtain ⟨_, _, _, rfl, rfl⟩ := (Threads.Pool.mk.injEq ..).mp (outer_pool houter hv)
  rfl

/-! ## Whole runs -/

section
variable {t : Threads.State} {move : Move} {clean : Prop}

theorem Shows.refl (s : State K) : Shows s (s.view s.pool.working s.pool.sending) :=
  ⟨_, _, .refl _, .refl _, rfl⟩

/-- Threads without a block have nothing. -/
theorem flatMap_idle {α : Type} {f : Task K → List α} (hf : f .idle = []) {row : List (Task K)}
    (h : ∀ task ∈ row, task = .idle) : row.flatMap f = [] :=
  List.flatMap_eq_nil_iff.2 fun task hmem => by rw [h task hmem, hf]

theorem shows_spawn (K : Crates) (job : Job) (threads : Nat) (queue : List Path) (path : Option Bytes) :
    Shows (spawn K job threads queue path) (Threads.spawn job queue path) := by
  have hidle : ∀ task ∈ (spawn K job threads queue path).pool.tasks, task = .idle :=
    fun task hmem => List.eq_of_mem_replicate hmem
  refine ⟨[], [], ?_, ?_, rfl⟩
  · exact (flatMap_idle rfl hidle : (spawn K job threads queue path).pool.working = []) ▸ .refl _
  · exact (flatMap_idle rfl hidle : (spawn K job threads queue path).pool.sending = []) ▸ .refl _

theorem outer_fails {m : Threads.Move} (houter : move.outer = some m) : m.fails = move.fails := by
  cases move <;> cases houter <;> rfl

/-- **Every step is matched** by a step of the pool without engines, or by none. -/
theorem step_matches (hsound : s.pool.Sound job clean) (hshows : Shows s t) (hcalm : clean → move.fails = false)
    (h : step job move s = some s') : Matches job clean s s' t := by
  cases houter : move.outer with
  | none => exact (poolStep_of_step houter h).matches (fun hc => by rw [hcalm hc]; rfl) hsound hshows
  | some m =>
    obtain ⟨htasks, _, _, t', ht', hshows'⟩ := (outer_shows houter hshows).1 s' h
    refine .inr ⟨m, t', fun hc => ?_, ht', hshows', ?_⟩
    · rw [outer_fails houter]
      exact hcalm hc
    · unfold Pool.silent
      rw [htasks]
      exact Nat.le_add_right _ 3

/-- **Every run is matched** by one of the pool without engines. -/
theorem run_matches {moves : List Move} (hcalm : clean → ∀ move ∈ moves, move.fails = false)
    (hsound : s.pool.Sound job clean) (hshows : Shows s t) (hrun : Progress.steps (step job) moves s = some s') :
    ∃ moves' t', (clean → ∀ move ∈ moves', move.fails = false) ∧ Threads.run K job moves' t = some t' ∧
      Shows s' t' ∧ s'.pool.Sound job clean := by
  obtain ⟨moves', t', hmoves', hrun', hshows', hsound'⟩ := Simulation.run
    (fun (m : Threads.Move) t => Threads.step K job t m) (fun s t => Shows s t ∧ s.pool.Sound job clean)
    (fun m : Move => clean → m.fails = false) (fun m : Threads.Move => clean → m.fails = false) (fun hm hR hs => by
      rcases step_matches hR.2 hR.1 hm hs with ⟨hshows, _⟩ | ⟨m, t', hclean, ht', hshows, _⟩
      · exact ⟨[], _, by simp, rfl, hshows, sound_step hm hR.2 hs⟩
      · refine ⟨[m], t', by simpa using hclean, ?_, hshows, sound_step hm hR.2 hs⟩
        exact Progress.steps_cons.2 ⟨t', ht', rfl⟩)
    (fun m hm hc => hcalm hc m hm) ⟨hshows, hsound⟩ hrun
  rw [← Threads.run_eq_steps] at hrun'
  exact ⟨moves', t', fun hc m hm => hmoves' m hm hc, hrun', hshows', hsound'⟩

/-! ## Every run comes to an end -/

/-- The steps left: those of the pool without engines, each of which can make three silent ones possible. -/
def State.work (job : Job) (s : State K) : Nat :=
  4 * (s.view s.pool.working s.pool.sending).work job + s.pool.silent

theorem Shows.work (hshows : Shows s t) : t.work job = (s.view s.pool.working s.pool.sending).work job := by
  obtain ⟨working, sending, hworking, hsending, rfl⟩ := hshows
  simp only [State.view, Pool.view, Threads.State.work, Threads.Pool.work, hworking.length_eq, hsending.length_eq]
  rfl

/-- **Every step uses up work**, a failure too. -/
theorem step_work (hsound : s.pool.Sound job False) (h : step job move s = some s') : s'.work job < s.work job := by
  unfold State.work
  rcases step_matches hsound (.refl s) False.elim h with ⟨hshows, hless⟩ | ⟨m, t', _, ht', hshows, hle⟩
  · rw [← hshows.work]
    omega
  · have hwork := Threads.step_work ht'
    rw [hshows.work] at hwork
    omega

/-- **A thread with a block can step**: the one that makes an engine has the lock, and the others find it free when there
is none. -/
theorem Pool.Lent.exists_step (hlent : s.pool.Lent) {i : Nat} {task : Task K} (htask : s.pool.tasks[i]? = some task)
    (hbusy : task ≠ .idle) : ∃ move s', move.fails = false ∧ step job move s = some s' := by
  have hwork : ∀ {i : Nat} {task : Task K}, s.pool.tasks[i]? = some task →
      (task.work job (Vector.replicate 12 0) s.pool.shared).isSome →
      ∃ move s', move.fails = false ∧ step job move s = some s' := by
    intro i task htask hsome
    obtain ⟨next, hnext⟩ := Option.isSome_iff_exists.1 hsome
    refine ⟨.work i (Vector.replicate 12 0), { s with pool := s.pool.advance i next }, rfl, ?_⟩
    simp only [step, htask, hnext, Option.bind_eq_bind, Option.bind_some]
  by_cases hheld : s.pool.shared.lock = .held
  · -- some thread is making an engine
    have hlock := hlent.lock
    rw [if_pos hheld] at hlock
    obtain ⟨n, hn, hpos⟩ : ∃ n ∈ s.pool.tasks.map Task.makes, n ≠ 0 := by
      by_contra hnone
      have hzero : (s.pool.tasks.map Task.makes).sum = 0 := List.sum_eq_zero fun n hn => by
        by_contra hne
        exact hnone ⟨n, hn, hne⟩
      omega
    obtain ⟨maker, hmem, rfl⟩ := List.mem_map.1 hn
    obtain ⟨j, hj⟩ := List.mem_iff_getElem?.1 hmem
    cases maker with
    | creating b =>
      refine hwork hj ?_
      simp only [Task.work]
      split <;> rfl
    | _ => exact absurd rfl hpos
  · cases task with
    | idle => exact absurd rfl hbusy
    | starting b =>
      refine hwork htask ?_
      simp only [Task.work]
      split
      · exact absurd ‹_› hheld
      all_goals rfl
    | creating b =>
      refine hwork htask ?_
      simp only [Task.work]
      split <;> rfl
    | processing b engine => exact hwork htask rfl
    | returning b engine result =>
      refine hwork htask ?_
      simp only [Task.work]
      split
      · exact absurd ‹_› hheld
      all_goals rfl
    | sending b =>
      refine ⟨.send i, ?_⟩
      simp only [step, htask]
      split
      · exact ⟨_, rfl, rfl⟩
      · exact ⟨_, rfl, rfl⟩
      · rename_i hnone _
        exact absurd rfl (hnone b)

/-- **No thread waits for ever**, on a channel, at a join or at a lock. -/
theorem exists_step (hlent : s.pool.Lent) (hshows : Shows s t) {queue : List Path} {handed : List RawBlock}
    {received : List ProcessedBlock} (hinv : Threads.Inv K job queue handed received t)
    (hover : s.main.over = false) (hthreads : 0 < s.pool.tasks.length) :
    ∃ move s', move.fails = false ∧ step job move s = some s' := by
  by_cases hidle : ∀ task ∈ s.pool.tasks, task = .idle
  · have hworking : s.pool.working = [] := flatMap_idle rfl hidle
    have hsending : s.pool.sending = [] := flatMap_idle rfl hidle
    have hfirst : s.pool.tasks[0]? = some .idle := by
      rw [List.getElem?_eq_getElem hthreads, hidle _ (List.getElem_mem hthreads)]
    obtain ⟨_, _, hw, hs, rfl⟩ := hshows
    rw [hworking] at hw
    rw [hsending] at hs
    obtain rfl := hw.eq_nil
    obtain rfl := hs.eq_nil
    have houter : ∀ (move : Move) {m : Threads.Move} {v : Threads.State}, move.outer = some m → m.fails = false →
        Threads.step K job (s.view [] []) m = some v → ∃ move s', move.fails = false ∧ step job move s = some s' :=
      fun move _ _ ho hm hv => by
        have hshows : Shows s (s.view [] []) := ⟨[], [], hworking ▸ .refl _, hsending ▸ .refl _, rfl⟩
        obtain ⟨s', hs'⟩ := Option.isSome_iff_exists.1 ((outer_shows ho hshows).2 (by rw [hv]; rfl))
        exact ⟨_, s', (outer_fails ho).symm.trans hm, hs'⟩
    obtain ⟨m, v, hm, hv⟩ := hinv.exists_step hover
    cases m with
    | main => exact houter .main rfl rfl hv
    | receive => exact houter .receive rfl rfl hv
    | disconnect => exact houter .disconnect rfl rfl hv
    | panicWriter | failProcess | failSend => cases hm
    | process | send => simp [Threads.step, State.view, Pool.view] at hv
    | take =>
      simp only [Threads.step] at hv
      split at hv
      · rename_i b raw hresult hraw
        have htake : (step job (.take 0) s).isSome := by
          simp only [step, hfirst, show s.pool.result = none from hresult, show s.pool.raw = b :: raw from hraw]
          rfl
        obtain ⟨s', hs'⟩ := Option.isSome_iff_exists.1 htake
        exact ⟨.take 0, s', rfl, hs'⟩
      · cases hv
    | endPool result =>
      simp only [Threads.step] at hv
      split at hv
      · rename_i hend
        refine ⟨.endPool result, _, rfl, if_pos ⟨hend.1, hworking, hsending, ?_⟩⟩
        rw [hworking, hsending]
        exact hend.2.2.2
      · cases hv
  · obtain ⟨task, hmem, hbusy⟩ : ∃ task ∈ s.pool.tasks, task ≠ .idle := by simpa using hidle
    obtain ⟨i, hi⟩ := List.mem_iff_getElem?.1 hmem
    exact hlent.exists_step hi hbusy

end

/-- **A pool with engines and locks ends too.** No schedule has more steps than four for each that is left to do without
engines, whatever fails in it; and as long as the call is not over, some thread can take a step that is no failure. -/
theorem pooled_terminates (hnew : job.archive.index.block = []) {threads : Nat} (hthreads : 0 < threads)
    {queue : List Path} {moves : List Move}
    (hrun : Progress.steps (step job) moves (spawn K job threads queue (some job.archive.writer.bytes)) = some s) :
    moves.length ≤ 4 * (job.queueWork queue + 8) ∧
      (s.main.over = true ∨ ∃ move s', move.fails = false ∧ step job move s = some s') := by
  have hsound := sound_spawn (K := K) job False threads queue (some job.archive.writer.bytes)
  constructor
  · have hcount := Progress.countP_steps (I := fun s => s.pool.Sound job False) (State.work job) (fun _ => true)
      (fun h hs => sound_step False.elim h hs) (fun h hs => step_work h hs) hsound hrun
    have hspawn : (spawn K job threads queue (some job.archive.writer.bytes)).work job =
        4 * (job.queueWork queue + 8) := by
      have hsilent : (spawn K job threads queue (some job.archive.writer.bytes)).pool.silent = 0 := by
        simp [spawn, Pool.silent, Task.silent]
      have hview : (Threads.spawn job queue (some job.archive.writer.bytes)).work job = _ :=
        (shows_spawn K job threads queue (some job.archive.writer.bytes)).work
      unfold State.work
      rw [hsilent, ← hview]
      rfl
    rw [List.countP_true] at hcount
    omega
  · obtain ⟨moves', t, _, hrun', hshows, _⟩ := run_matches False.elim hsound (shows_spawn K job threads queue _) hrun
    obtain ⟨_, _, hinv⟩ := Threads.inv_run hnew (Threads.inv_spawn job queue) hrun'
    obtain ⟨hlent, hlength⟩ := lent_run hrun
    cases hover : s.main.over with
    | true => exact .inl rfl
    | false => exact .inr (exists_step hlent hshows hinv hover (hlength ▸ hthreads))

/-- Two threads process a file of two blocks in twenty-six steps. -/
theorem pooled_terminates_two :
    let K := Crates.tabled [Header.stored 2] [indexOfA]
    ∃ s : State K, Progress.steps (step Job.small) crossing (spawn K Job.small 2 [[.normal "src", .normal "a"]]
        (some Job.small.archive.writer.bytes)) = some s ∧
      crossing.length ≤ 4 * (Job.small.queueWork [[.normal "src", .normal "a"]] + 8) ∧
      (s.main.over = true ∨ ∃ move s', move.fails = false ∧ step Job.small move s = some s') := by
  intro K
  have hshown : (Progress.steps (step (K := K) Job.small) crossing (spawn K Job.small 2 [[.normal "src", .normal "a"]]
      (some Job.small.archive.writer.bytes))).isSome = true := by decide +kernel
  obtain ⟨s, hrun⟩ := Option.isSome_iff_exists.1 hshown
  exact ⟨s, hrun, pooled_terminates rfl (by decide) hrun⟩

/-- **The pool adds no failure of its own**, with engines and locks too. -/
theorem pooled_succeeds (hnew : job.archive.index.block = []) {threads : Nat} (hthreads : 0 < threads)
    {queue : List Path} (hall : job.Succeeds K queue) {moves : List Move} (hmoves : ∀ move ∈ moves, move.fails = false)
    (hrun : Progress.steps (step job) moves (spawn K job threads queue (some job.archive.writer.bytes)) = some s) :
    s.main = .returned (.ok ()) ∨ ∃ move s', move.fails = false ∧ step job move s = some s' := by
  obtain ⟨moves', t, hmoves', hrun', hshows, _⟩ := run_matches (fun _ => hmoves) (sound_spawn job True threads queue _)
    (shows_spawn K job threads queue _) hrun
  obtain ⟨reader, hplan⟩ := hall.plan hnew
  obtain ⟨_, _, hinv⟩ := Threads.inv_run hnew (Threads.inv_spawn job queue) hrun'
  have hcalm := Threads.calm_run hnew hplan (hmoves' trivial) (Threads.inv_spawn job queue)
    (Threads.calm_spawn job queue _) hrun'
  have hmain : t.main = s.main := by
    obtain ⟨_, _, _, _, rfl⟩ := hshows
    rfl
  obtain ⟨hlent, hlength⟩ := lent_run hrun
  cases hover : s.main.over with
  | false => exact .inr (exists_step hlent hshows hinv hover (hlength ▸ hthreads))
  | true => exact .inl (hmain ▸ hcalm.returned (hmain ▸ hover))

/-- The two threads succeed. -/
theorem pooled_succeeds_two : ∃ s : State Threads.Crates.blank, Progress.steps (step Job.small) crossing
      (spawn Threads.Crates.blank Job.small 2 [[.normal "src", .normal "a"]] (some Job.small.archive.writer.bytes)) = some s ∧
    (s.main = .returned (.ok ()) ∨ ∃ move s', move.fails = false ∧ step Job.small move s = some s') := by
  have hshown : (Progress.steps (step (K := Threads.Crates.blank) Job.small) crossing (spawn Threads.Crates.blank Job.small 2
      [[.normal "src", .normal "a"]] (some Job.small.archive.writer.bytes))).isSome = true := by decide +kernel
  obtain ⟨s, hrun⟩ := Option.isSome_iff_exists.1 hshown
  exact ⟨s, hrun, pooled_succeeds rfl (by decide) Threads.small_succeeds (by decide) hrun⟩

/-- A call that returned, with so many threads in the pool: before its threads started, or after some schedule of their
moves. What stands at the archive's path then is the last argument. -/
inductive Returns (K : Crates) (threads : Nat) (setup : Setup) (os : Os) (indexNonce : Nonce) (args : CompressArgs)
    (existing : Option Bytes) : Result Unit → Option Bytes → Prop where
  | early {e : CryoErrors} {path : Option Bytes} (hopen : openArchive K setup args existing = (.error e, path)) :
      Returns K threads setup os indexNonce args existing (.error e) path
  | late {root : Path} {queue : List Path} {archive : ArchiveWriter} {path : Option Bytes} {moves : List Move}
      {s : State K} {r : Result Unit} (hopen : openArchive K setup args existing = (.ok (root, queue, archive), path))
      (hrun : Progress.steps (step ⟨os, root, args.bs, archive, indexNonce⟩) moves
        (spawn K ⟨os, root, args.bs, archive, indexNonce⟩ threads queue path) = some s)
      (hmain : s.main = .returned r) : Returns K threads setup os indexNonce args existing r s.path

/-- **A call with engines is a call without.** -/
theorem Returns.shown {threads : Nat} {setup : Setup} {os : Os} {indexNonce : Nonce} {args : CompressArgs}
    {existing path : Option Bytes} {r : Result Unit} (h : Returns K threads setup os indexNonce args existing r path) :
    Cryo.Returns K setup os indexNonce args existing r path := by
  cases h with
  | early hopen => exact .early hopen
  | late hopen hrun hmain =>
    obtain ⟨moves', t, _, hrun', ⟨_, _, _, _, rfl⟩, _⟩ := run_matches False.elim (sound_spawn _ False threads _ _)
      (shows_spawn K _ threads _ _) hrun
    exact .late hopen hrun' hmain

end Engines

end Cryo
