/-
  Lineage.Proofs.World.WriteBehind

  Writing behind comes to the same as writing at once.

  While the writer runs, before it are updates that nobody waits for and after them at
  most one message that the caller waits for (`Busy`).  Once these updates are applied,
  what is stored is what it would be if every update were applied when it is submitted
  (`Inv`); the count is that of the updates which are not known to be applied.  Both
  threads preserve this.
-/
import Lineage.Proofs.World.Threads

namespace Lineage.WriteBehind

open World (applyJob)

/-! ## The invariant -/

/-- The message that the writer holds. -/
def Writer.inHand : Writer → List Message
  | holding m => [m]
  | _ => []

/-- How much the count is still to be lowered. -/
def Writer.owes : Writer → Nat
  | lowering => 1
  | _ => 0

namespace Threads

/-- The messages before the writer, the one that it holds first. -/
def ahead (t : Threads) : List Message := t.writer.inHand ++ t.channel

end Threads

/-- The writer runs.  Before it are `jobs` that nobody waits for, and then `last`; with the jobs
applied, `store` is stored. -/
structure Busy (t : Threads) (jobs : List Job) (last : List Message) (store : Store) (raised : Nat) :
    Prop where
  ahead : t.ahead = jobs.map .later ++ last
  stored : jobs.foldl applyJob t.store = store
  pending : t.pending = jobs.length + t.writer.owes + raised
  listening : t.Listening
  silent : ∀ result, t.writer ≠ .answering result
  reply : t.reply = none
  reached : t.reached = false

/-- The writer has ended, with nothing left before it. -/
structure Ended (t : Threads) (store : Store) (raised : Nat) : Prop where
  writer : t.writer = .exited
  channel : t.channel = []
  stored : t.store = store
  pending : t.pending = raised
  reply : t.reply = none
  reached : t.reached = false

/-- Nothing is waited for; what is stored, once the jobs are applied, is what it should be. -/
def Even (t : Threads) (s : Serial) (raised : Nat) : Prop :=
  (t.running = true ∧ s.taking = true ∧ ∃ jobs, Busy t jobs [] s.store raised) ∨
  (t.running = false ∧ s.taking = false ∧ Ended t s.store raised)

/-- The update that is waited for has been applied, and nothing is left before the writer. -/
structure Applied (t : Threads) (job : Job) (before : Store) : Prop where
  ahead : t.ahead = []
  stored : t.store = applyJob before job
  pending : t.pending = 0
  reached : t.reached = false
  told : (t.writer = .answering (Store.update job.id job.update before).1 ∧ t.reply = none) ∨
    (t.writer = .waiting ∧ t.reply = some (Store.update job.id job.update before).1)

/-- The barrier has been reached, and nothing is left before the writer. -/
structure Reached (t : Threads) (store : Store) : Prop where
  writer : t.writer = .waiting
  channel : t.channel = []
  stored : t.store = store
  pending : t.pending = 0
  reply : t.reply = none
  reached : t.reached = true

/-- Where the two threads are, and where they would be if every update had been applied when it was
submitted: that is said of the calls that have returned. -/
def Inv (t : Threads) (s : Serial) : Prop :=
  match t.stage with
  | .ready => Even t s 0
  | .raised => (∃ job rest, t.calls = .writeLater job :: rest) ∧ Even t s 1
  | .refused => (∃ job rest, t.calls = .writeLater job :: rest) ∧
      t.running = false ∧ s.taking = false ∧ Ended t s.store 1
  | .awaiting => t.running = true ∧ s.taking = true ∧ ∃ job rest, t.calls = .write job :: rest ∧
      ((∃ jobs, Busy t jobs [.now job] s.store 0) ∨ Applied t job s.store)
  | .signalling => (∃ c rest, t.calls = c :: rest ∧ c.fences = true) ∧ Even t s 0
  | .fencing => t.running = true ∧ s.taking = true ∧
      (∃ c rest, t.calls = c :: rest ∧ c.fences = true) ∧
      ((∃ jobs, Busy t jobs [.barrier] s.store 0) ∨ Reached t s.store)
  | .fenced => (∃ c rest, t.calls = c :: rest ∧ c.fences = true) ∧ Even t s 0 ∧ t.ahead = [] ∧
      t.store = s.store
  | .stopping => (∃ c rest, t.calls = c :: rest ∧ c.stops = true) ∧ Even t s 0
  | .joining => t.running = false ∧ (∃ c rest, t.calls = c :: rest ∧ c.stops = true) ∧
      ((∃ jobs, Busy t jobs [.shutdown] s.store 0) ∨ Ended t s.store 0)
  | .stopped => t.running = false ∧ (∃ c rest, t.calls = c :: rest ∧ c.stops = true) ∧
      Ended t s.store 0

/-! ## The writer -/

/-- The writer leaves alone what is the caller's. -/
theorem WriterStep.frame {t t' : Threads} (h : WriterStep t t') : t'.stage = t.stage ∧
    t'.calls = t.calls ∧ t'.answers = t.answers ∧ t'.running = t.running := by
  cases h <;> exact ⟨rfl, rfl, rfl, rfl⟩

namespace Busy

variable {t t' : Threads} {jobs : List Job} {last : List Message} {store : Store} {raised : Nat}

/-- A message that the writer holds is the next job or, after all jobs, the last message. -/
theorem holding (h : Busy t jobs last store raised) {m : Message} (hw : t.writer = .holding m) :
    (∃ job jobs', jobs = job :: jobs' ∧ m = .later job ∧ t.channel = jobs'.map .later ++ last) ∨
      (jobs = [] ∧ last = m :: t.channel) := by
  have hahead := h.ahead
  rw [Threads.ahead, hw] at hahead
  cases jobs with
  | nil => exact .inr ⟨rfl, hahead.symm⟩
  | cons job jobs' =>
    obtain ⟨hm, hchannel⟩ := List.cons.inj hahead
    exact .inl ⟨job, jobs', rfl, hm, hchannel⟩

/-- The writer goes on with its jobs until it holds the last message. -/
theorem writerStep (h : Busy t jobs last store raised) (hstep : WriterStep t t')
    (hlast : ∀ job, .later job ∉ last) :
    (∃ jobs', Busy t' jobs' last store raised) ∨
      ∃ m, t.writer = .holding m ∧ last = m :: t.channel ∧ t.store = store ∧ t.pending = raised := by
  have hpending := h.pending
  -- Any message but a deferred job is the last one, with no job ahead of it.
  have hheld {m : Message} (hw : t.writer = .holding m) (hm : ∀ job, m ≠ .later job) :
      ∃ m, t.writer = .holding m ∧ last = m :: t.channel ∧ t.store = store ∧ t.pending = raised := by
    rcases h.holding hw with ⟨job, -, -, rfl, -⟩ | ⟨rfl, hlast⟩
    · exact absurd rfl (hm job)
    · refine ⟨m, hw, hlast, h.stored, ?_⟩
      rw [hpending, hw]
      exact Nat.zero_add _
  cases hstep with
  | @receive m rest hw hm =>
    refine .inl ⟨jobs, ?_, h.stored, ?_, fun hl => (nomatch hl), fun _ hl => (nomatch hl), h.reply,
      h.reached⟩
    · have hahead := h.ahead
      rw [Threads.ahead, hw, hm] at hahead
      exact hahead
    · rw [hw] at hpending
      exact hpending
  | @apply job hw =>
    rcases h.holding hw with ⟨job', jobs', rfl, hm, hchannel⟩ | ⟨rfl, hlater⟩
    · cases hm
      refine .inl ⟨jobs', hchannel, h.stored, ?_, fun hl => (nomatch hl), fun _ hl => (nomatch hl),
        h.reply, h.reached⟩
      rw [hw, List.length_cons] at hpending
      exact hpending
    · exact absurd (hlater ▸ List.mem_cons_self) (hlast job)
  | lower hw =>
    refine .inl ⟨jobs, ?_, h.stored, ?_, fun hl => (nomatch hl), fun _ hl => (nomatch hl), h.reply,
      h.reached⟩
    · have hahead := h.ahead
      rw [Threads.ahead, hw] at hahead
      exact hahead
    · rw [hw] at hpending
      simp only [Writer.owes] at hpending ⊢
      omega
  | applyNow hw => exact .inr (hheld hw fun _ => nofun)
  | answer hw => exact absurd hw (h.silent _)
  | reach hw => exact .inr (hheld hw fun _ => nofun)
  | exit hw => exact .inr (hheld hw fun _ => nofun)

/-- Without a last message the writer only goes on with its jobs. -/
theorem writerStep_nil (h : Busy t jobs [] store raised) (hstep : WriterStep t t') :
    ∃ jobs', Busy t' jobs' [] store raised := by
  rcases h.writerStep hstep fun _ => List.not_mem_nil with hbusy | ⟨m, -, hm, -⟩
  · exact hbusy
  · cases hm

end Busy

/-- A thread that has ended takes no more steps. -/
theorem Ended.not_writerStep {t t' : Threads} {store : Store} {raised : Nat}
    (h : Ended t store raised) : ¬ WriterStep t t' := by
  have hwriter := h.writer
  intro hstep
  cases hstep <;> simp_all

theorem Even.writerStep {t t' : Threads} {s : Serial} {raised : Nat} (h : Even t s raised)
    (hstep : WriterStep t t') : Even t' s raised := by
  rcases h with ⟨hrunning, htaking, jobs, hbusy⟩ | ⟨-, -, hended⟩
  · exact .inl ⟨hstep.frame.2.2.2.trans hrunning, htaking, hbusy.writerStep_nil hstep⟩
  · exact absurd hstep hended.not_writerStep

/-- With nothing before it the writer at most lowers the count. -/
theorem WriterStep.of_nothing_ahead {t t' : Threads} (hstep : WriterStep t t')
    (hahead : t.ahead = []) : t'.ahead = [] ∧ t'.store = t.store := by
  obtain ⟨hhand, hchannel⟩ := List.append_eq_nil_iff.mp hahead
  have hheld {m : Message} (hw : t.writer = .holding m) : False := by
    rw [hw] at hhand
    cases hhand
  cases hstep with
  | receive hw hm =>
    rw [hchannel] at hm
    cases hm
  | apply hw => exact (hheld hw).elim
  | lower hw => exact ⟨hchannel, rfl⟩
  | applyNow hw => exact (hheld hw).elim
  | answer hw => exact ⟨hchannel, rfl⟩
  | reach hw => exact (hheld hw).elim
  | exit hw => exact (hheld hw).elim

/-- With nothing before it the writer at most tells an outcome. -/
theorem Applied.writerStep {t t' : Threads} {job : Job} {before : Store}
    (h : Applied t job before) (hstep : WriterStep t t') : Applied t' job before := by
  obtain ⟨hahead, houtcome, hpending, hreached, htold⟩ := h
  obtain ⟨hhand, hchannel⟩ := List.append_eq_nil_iff.mp hahead
  have hother {w : Writer} (hw : t.writer = w) : w ≠ .waiting →
      w = .answering (Store.update job.id job.update before).1 := by
    intro hne
    rcases htold with ⟨hwriter, -⟩ | ⟨hwriter, -⟩
    · exact hw.symm.trans hwriter
    · exact absurd (hw.symm.trans hwriter) hne
  cases hstep with
  | receive hw hm =>
    rw [hchannel] at hm
    cases hm
  | answer hw =>
    cases hother hw nofun
    exact ⟨hchannel, houtcome, hpending, hreached, .inr ⟨rfl, rfl⟩⟩
  | _ hw => cases hother hw nofun

theorem Reached.not_writerStep {t t' : Threads} {store : Store} (h : Reached t store) :
    ¬ WriterStep t t' := by
  have hwriter := h.writer
  have hchannel := h.channel
  intro hstep
  cases hstep <;> simp_all

/-- What the writer does on the way to a message that is waited for, and with that message. -/
theorem Busy.awaited {t t' : Threads} {jobs : List Job} {m : Message} {store : Store} {raised : Nat}
    (h : Busy t jobs [m] store raised) (hm : ∀ job, m ≠ .later job) (hstep : WriterStep t t') :
    (∃ jobs', Busy t' jobs' [m] store raised) ∨
      (t.writer = .holding m ∧ t.channel = [] ∧ t.store = store ∧ t.pending = raised) := by
  rcases h.writerStep hstep fun job hjob => hm job (List.mem_singleton.mp hjob).symm with
    hbusy | ⟨m', hw, hlast, hstored, hpending⟩
  · exact .inl hbusy
  · obtain ⟨rfl, hchannel⟩ := List.cons.inj hlast
    exact .inr ⟨hw, hchannel.symm, hstored, hpending⟩

/-- Whatever the writer does, things stay in step. -/
theorem Inv.writerStep {t t' : Threads} {s : Serial} (h : Inv t s) (hstep : WriterStep t t') :
    Inv t' s := by
  obtain ⟨hstage, hcalls, -, hrunning⟩ := hstep.frame
  unfold Inv at h ⊢
  rw [hstage, hcalls, hrunning]
  -- The stage and the calls stay: it is the condition of the stage that has to be kept.
  cases hs : t.stage with
  | ready =>
    rw [hs] at h
    exact h.writerStep hstep
  | raised =>
    rw [hs] at h
    exact ⟨h.1, h.2.writerStep hstep⟩
  | refused =>
    rw [hs] at h
    exact absurd hstep h.2.2.2.not_writerStep
  | awaiting =>
    rw [hs] at h
    obtain ⟨hrun, htaking, job, rest, hc, ⟨jobs, hbusy⟩ | happlied⟩ := h
    · refine ⟨hrun, htaking, job, rest, hc, ?_⟩
      have hreached := hbusy.reached
      have hreply := hbusy.reply
      -- The writer is still busy with earlier jobs, or it takes up the one that is waited for.
      rcases hbusy.awaited (fun _ => nofun) hstep with hbusy' | ⟨hw, hchannel, hstored, hpending⟩
      · exact .inl hbusy'
      · right
        cases hstep with
        | @applyNow job' hw' =>
          cases hw.symm.trans hw'
          rw [← hstored]
          exact ⟨hchannel, rfl, hpending, hreached, .inl ⟨rfl, hreply⟩⟩
        | _ hw' => cases hw.symm.trans hw'
    · exact ⟨hrun, htaking, job, rest, hc, .inr (happlied.writerStep hstep)⟩
  | signalling =>
    rw [hs] at h
    exact ⟨h.1, h.2.writerStep hstep⟩
  | fencing =>
    rw [hs] at h
    obtain ⟨hrun, htaking, hc, ⟨jobs, hbusy⟩ | hreached⟩ := h
    · refine ⟨hrun, htaking, hc, ?_⟩
      have hreply := hbusy.reply
      rcases hbusy.awaited (fun _ => nofun) hstep with hbusy' | ⟨hw, hchannel, hstored, hpending⟩
      · exact .inl hbusy'
      · right
        cases hstep with
        | reach hw' => exact ⟨rfl, hchannel, hstored, hpending, hreply, rfl⟩
        | _ hw' => cases hw.symm.trans hw'
    · exact absurd hstep hreached.not_writerStep
  | fenced =>
    rw [hs] at h
    obtain ⟨hc, heven, hahead, hstored⟩ := h
    obtain ⟨hahead', hstore⟩ := hstep.of_nothing_ahead hahead
    exact ⟨hc, heven.writerStep hstep, hahead', hstore.trans hstored⟩
  | stopping =>
    rw [hs] at h
    exact ⟨h.1, h.2.writerStep hstep⟩
  | joining =>
    rw [hs] at h
    obtain ⟨hrun, hc, ⟨jobs, hbusy⟩ | hended⟩ := h
    · refine ⟨hrun, hc, ?_⟩
      have hreached := hbusy.reached
      have hreply := hbusy.reply
      rcases hbusy.awaited (fun _ => nofun) hstep with hbusy' | ⟨hw, hchannel, hstored, hpending⟩
      · exact .inl hbusy'
      · right
        cases hstep with
        | exit hw' => exact ⟨rfl, rfl, hstored, hpending, hreply, hreached⟩
        | _ hw' => cases hw.symm.trans hw'
    · exact absurd hstep hended.not_writerStep
  | stopped =>
    rw [hs] at h
    exact absurd hstep h.2.2.not_writerStep

/-! ## The caller -/

namespace Busy

variable {t : Threads} {jobs : List Job} {store : Store} {raised : Nat}

/-- How far the calls are does not matter to the writer. -/
theorem moved (h : Busy t jobs [] store raised) (calls : List Call) (answers : List Answer)
    (stage : Stage) : Busy { t with calls, answers, stage } jobs [] store raised :=
  ⟨h.ahead, h.stored, h.pending, h.listening, h.silent, h.reply, h.reached⟩

/-- A writer that waits, with nothing before it, has no jobs. -/
theorem idle (hwriter : t.writer = .waiting) (hahead : t.ahead = []) (hstored : t.store = store)
    (hpending : t.pending = 0) (hreply : t.reply = none) (hreached : t.reached = false) :
    Busy t [] [] store 0 where
  ahead := hahead
  stored := hstored
  pending := by
    rw [hpending, hwriter]
    rfl
  listening := by
    show t.writer ≠ .exited
    rw [hwriter]
    nofun
  silent result := by
    rw [hwriter]
    nofun
  reply := hreply
  reached := hreached

/-- A message is sent. -/
theorem sent (h : Busy t jobs [] store raised) (m : Message) (stage : Stage) (running : Bool) :
    Busy { t.sending m with stage, running } jobs [m] store raised where
  ahead := by
    have hahead := h.ahead
    rw [List.append_nil] at hahead
    rw [← hahead]
    exact (List.append_assoc _ _ _).symm
  stored := h.stored
  pending := h.pending
  listening := h.listening
  silent := h.silent
  reply := h.reply
  reached := h.reached

/-- An update that nobody waits for is sent. -/
theorem sentLater (h : Busy t jobs [] store 1) (job : Job) (a : Answer) :
    Busy ((t.sending (.later job)).giving a) (jobs ++ [job]) [] (applyJob store job) 0 where
  ahead := by
    have hahead := (h.sent (.later job) t.stage t.running).ahead
    rw [List.append_nil, List.map_append]
    exact hahead
  stored := by
    rw [List.foldl_append]
    exact congrArg (applyJob · job) h.stored
  pending := by
    have hpending := h.pending
    rw [List.length_append, List.length_singleton]
    show t.pending = jobs.length + 1 + t.writer.owes + 0
    omega
  listening := h.listening
  silent := h.silent
  reply := h.reply
  reached := h.reached

end Busy

namespace Ended

variable {t : Threads} {store : Store} {raised : Nat}

theorem deaf (h : Ended t store raised) : ¬ t.Listening := fun hl => hl h.writer

theorem ahead (h : Ended t store raised) : t.ahead = [] := by
  rw [Threads.ahead, h.writer, h.channel]
  rfl

theorem moved (h : Ended t store raised) (calls : List Call) (answers : List Answer)
    (stage : Stage) : Ended { t with calls, answers, stage } store raised :=
  ⟨h.writer, h.channel, h.stored, h.pending, h.reply, h.reached⟩

end Ended

namespace Even

variable {t : Threads} {s : Serial} {raised : Nat}

theorem of_listening (h : Even t s raised) (hl : t.Listening) :
    t.running = true ∧ s.taking = true ∧ ∃ jobs, Busy t jobs [] s.store raised :=
  h.elim id fun h => absurd hl h.2.2.deaf

theorem moved (h : Even t s raised) (calls : List Call) (answers : List Answer) (stage : Stage) :
    Even { t with calls, answers, stage } s raised :=
  h.imp (fun ⟨hrun, htaking, jobs, hbusy⟩ => ⟨hrun, htaking, jobs, hbusy.moved ..⟩)
    fun ⟨hrun, htaking, hended⟩ => ⟨hrun, htaking, hended.moved ..⟩

/-- The count is raised. -/
theorem raise (h : Even t s raised) (stage : Stage) :
    Even { t with pending := t.pending + 1, stage } s (raised + 1) := by
  rcases h with ⟨hrun, htaking, jobs, hbusy⟩ | ⟨hrun, htaking, hended⟩
  · refine .inl ⟨hrun, htaking, jobs, hbusy.ahead, hbusy.stored, ?_, hbusy.listening, hbusy.silent,
      hbusy.reply, hbusy.reached⟩
    have hpending := hbusy.pending
    show t.pending + 1 = jobs.length + t.writer.owes + (raised + 1)
    omega
  · exact .inr ⟨hrun, htaking, hended.writer, hended.channel, hended.stored,
      congrArg (· + 1) hended.pending, hended.reply, hended.reached⟩

/-- When nothing is counted, nothing is left before the writer. -/
theorem nothing_left (h : Even t s 0) (hpending : t.pending = 0) :
    t.ahead = [] ∧ t.store = s.store := by
  rcases h with ⟨-, -, jobs, hbusy⟩ | ⟨-, -, hended⟩
  · have hcount := hbusy.pending
    obtain rfl : jobs = [] := List.eq_nil_of_length_eq_zero (by omega)
    exact ⟨hbusy.ahead, hbusy.stored⟩
  · exact ⟨hended.ahead, hended.stored⟩

/-- With nothing left before the writer the store may be used by the caller. -/
theorem accessed (h : Even t s 0) (hahead : t.ahead = []) (store : Store) :
    Even { t with store } { s with store } 0 := by
  rcases h with ⟨hrun, htaking, jobs, hbusy⟩ | ⟨hrun, htaking, hended⟩
  · have hjobs := hbusy.ahead
    rw [hahead, List.append_nil] at hjobs
    obtain rfl : jobs = [] := List.map_eq_nil_iff.mp hjobs.symm
    exact .inl ⟨hrun, htaking, [], hbusy.ahead, rfl, hbusy.pending, hbusy.listening, hbusy.silent,
      hbusy.reply, hbusy.reached⟩
  · exact .inr ⟨hrun, htaking, hended.writer, hended.channel, rfl, hended.pending, hended.reply,
      hended.reached⟩

theorem of_deaf (h : Even t s raised) (hl : ¬ t.Listening) :
    t.running = false ∧ s.taking = false ∧ Ended t s.store raised :=
  h.elim (fun ⟨_, _, _, hbusy⟩ => absurd hbusy.listening hl) id

end Even

/-- What becomes of things in step when the caller takes a step: the current call goes on, or it
returns what it should. -/
def Advances (t t' : Threads) (s : Serial) : Prop :=
  (t'.calls = t.calls ∧ t'.answers = t.answers ∧ Inv t' s) ∨
    ∃ c, t.calls = c :: t'.calls ∧ t'.answers = t.answers ++ [(s.perform c).1] ∧
      Inv t' (s.perform c).2

theorem Advances.within {t t' : Threads} {s : Serial} (hc : t'.calls = t.calls)
    (ha : t'.answers = t.answers) (h : Inv t' s) : Advances t t' s := .inl ⟨hc, ha, h⟩

theorem Advances.returning {t u : Threads} {s s' : Serial} {c : Call} {rest : List Call} {a : Answer}
    (hc : t.calls = c :: rest) (hcalls : u.calls = t.calls) (hanswers : u.answers = t.answers)
    (hperform : s.perform c = (a, s')) (h : Even (u.giving a) s' 0) : Advances t (u.giving a) s := by
  refine .inr ⟨c, ?_, ?_, ?_⟩
  · show t.calls = c :: u.calls.tail
    rw [hcalls, hc]
    rfl
  · show u.answers ++ [a] = _
    rw [hanswers, hperform]
  · rw [hperform]
    exact h

/-- A call that uses the store after its barrier does there what it would do in the serial run. -/
theorem perform_of_access {c : Call} {s : Serial} {a : Answer} {store : Store}
    (h : c.access s.store = some (a, store)) : s.perform c = (a, { s with store }) := by
  cases c <;> cases h <;> rfl

theorem perform_of_leave {c : Call} {s : Serial} {a : Answer} {store : Store}
    (h : c.leave s.store = some (a, store)) : s.perform c = (a, ⟨store, false⟩) := by
  cases c <;> cases h <;> rfl

section

variable {s : Serial} (htaking : s.taking = true) (job : Job)
include htaking

theorem perform_write : s.perform (.write job) =
    (.written (Store.update job.id job.update s.store).1,
      { s with store := applyJob s.store job }) := by
  simp only [Serial.perform, htaking, if_true]

theorem perform_writeLater : s.perform (.writeLater job) =
    (.done, { s with store := applyJob s.store job }) := by
  simp only [Serial.perform, htaking, if_true]

end

/-- Whatever the caller does, things stay in step. -/
theorem Inv.callerStep {t t' : Threads} {s : Serial} (h : Inv t s) (hstep : CallerStep t t') :
    Advances t t' s := by
  unfold Inv at h
  cases hstep with
  | @send job rest hc hs hl =>
    rw [hs] at h
    obtain ⟨hrun, htaking, jobs, hbusy⟩ := h.of_listening hl
    exact .within rfl rfl ⟨hrun, htaking, job, rest, hc, .inl ⟨jobs, hbusy.sent _ _ _⟩⟩
  | unsent hc hs hl =>
    rw [hs] at h
    refine .returning hc rfl rfl ?_ (h.moved ..)
    simp only [Serial.perform, (h.of_deaf hl).2.1, Bool.false_eq_true, if_false]
  | @hear result hs hr =>
    rw [hs] at h
    obtain ⟨hrun, htaking, job, rest, hc, ⟨jobs, hbusy⟩ | happlied⟩ := h
    · rw [hbusy.reply] at hr
      cases hr
    · rcases happlied.told with ⟨-, hreply⟩ | ⟨hwriter, hreply⟩
      · rw [hreply] at hr
        cases hr
      · rw [hreply] at hr
        cases hr
        exact .returning hc rfl rfl (perform_write htaking job) (.inl ⟨hrun, htaking, [],
          .idle hwriter happlied.ahead happlied.stored happlied.pending rfl happlied.reached⟩)
  | unheard hs hr hl =>
    -- The writer cannot have ended.
    rw [hs] at h
    obtain ⟨-, -, job, rest, -, ⟨jobs, hbusy⟩ | happlied⟩ := h
    · exact absurd hbusy.listening hl
    · refine absurd (fun hexited => ?_) hl
      rcases happlied.told with ⟨hwriter, -⟩ | ⟨hwriter, -⟩ <;> cases hwriter.symm.trans hexited
  | @raise job rest hc hs =>
    rw [hs] at h
    exact .within rfl rfl ⟨⟨job, rest, hc⟩, h.raise .raised⟩
  | @sendLater job rest hc hs hl =>
    rw [hs] at h
    obtain ⟨hrun, htaking, jobs, hbusy⟩ := h.2.of_listening hl
    exact .returning hc rfl rfl (perform_writeLater htaking job)
      (.inl ⟨hrun, htaking, _, hbusy.sentLater _ _⟩)
  | refuse hs hl =>
    rw [hs] at h
    obtain ⟨hrun, htaking, hended⟩ := h.2.of_deaf hl
    exact .within rfl rfl ⟨h.1, hrun, htaking, hended.moved ..⟩
  | unraise hs =>
    rw [hs] at h
    obtain ⟨⟨job, rest, hc⟩, hrun, htaking, hended⟩ := h
    refine .returning hc rfl rfl ?_ (.inr ⟨hrun, htaking, hended.writer, hended.channel,
      hended.stored, congrArg (· - 1) hended.pending, hended.reply, hended.reached⟩)
    simp only [Serial.perform, htaking, Bool.false_eq_true, if_false]
  | pass hc hf hs hp =>
    rw [hs] at h
    obtain ⟨hahead, hstored⟩ := h.nothing_left hp
    exact .within rfl rfl ⟨⟨_, _, hc, hf⟩, h.moved .., hahead, hstored⟩
  | block hc hf hs hp =>
    rw [hs] at h
    exact .within rfl rfl ⟨⟨_, _, hc, hf⟩, h.moved ..⟩
  | signal hs hl =>
    rw [hs] at h
    obtain ⟨hrun, htaking, jobs, hbusy⟩ := h.2.of_listening hl
    exact .within rfl rfl ⟨hrun, htaking, h.1, .inl ⟨jobs, hbusy.sent _ _ _⟩⟩
  | unsignalled hs hl =>
    rw [hs] at h
    obtain ⟨-, -, hended⟩ := h.2.of_deaf hl
    exact .within rfl rfl ⟨h.1, h.2.moved .., hended.ahead, hended.stored⟩
  | reach hs hr =>
    rw [hs] at h
    obtain ⟨hrun, htaking, hc, ⟨jobs, hbusy⟩ | hreached⟩ := h
    · rw [hbusy.reached] at hr
      cases hr
    · have hahead : t.ahead = [] := by
        rw [Threads.ahead, hreached.writer, hreached.channel]
        rfl
      exact .within rfl rfl ⟨hc, .inl ⟨hrun, htaking, [], .idle hreached.writer hahead hreached.stored
        hreached.pending hreached.reply rfl⟩, hahead, hreached.stored⟩
  | unreached hs hr hl =>
    -- The writer cannot have ended.
    rw [hs] at h
    obtain ⟨-, -, -, ⟨jobs, hbusy⟩ | hreached⟩ := h
    · exact absurd hbusy.listening hl
    · rw [hreached.reached] at hr
      cases hr
  | @access c rest a store hc hs ha =>
    rw [hs] at h
    obtain ⟨-, heven, hahead, hstored⟩ := h
    rw [hstored] at ha
    exact .returning hc rfl rfl (perform_of_access ha) ((heven.accessed hahead store).moved ..)
  | @halt c rest hc hh hs =>
    have heven : Even t s 0 := by
      cases hf : c.fences with
      | true =>
        simp only [hs, hf, if_true] at h
        exact h.2.1
      | false =>
        simp only [hs, hf, Bool.false_eq_true, if_false] at h
        exact h
    exact .within rfl rfl ⟨⟨c, rest, hc, hh⟩, heven.moved ..⟩
  | tell hs hr =>
    rw [hs] at h
    obtain ⟨hc, ⟨-, -, jobs, hbusy⟩ | ⟨hrun, -⟩⟩ := h
    · exact .within rfl rfl ⟨rfl, hc, .inl ⟨jobs, hbusy.sent _ _ _⟩⟩
    · rw [hr] at hrun
      cases hrun
  | told hs hr =>
    rw [hs] at h
    obtain ⟨hc, ⟨hrun, -⟩ | ⟨-, -, hended⟩⟩ := h
    · rw [hr] at hrun
      cases hrun
    · exact .within rfl rfl ⟨hr, hc, hended.moved ..⟩
  | join hs hl =>
    rw [hs] at h
    obtain ⟨hrun, hc, ⟨jobs, hbusy⟩ | hended⟩ := h
    · exact absurd hbusy.listening hl
    · exact .within rfl rfl ⟨hrun, hc, hended.moved ..⟩
  | @leave c rest a store hc hs ha =>
    rw [hs] at h
    obtain ⟨hrun, -, hended⟩ := h
    rw [hended.stored] at ha
    exact .returning hc rfl rfl (perform_of_leave ha) (.inr ⟨hrun, rfl, hended.writer, hended.channel,
      rfl, hended.pending, hended.reply, hended.reached⟩)

end Lineage.WriteBehind
