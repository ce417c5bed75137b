/-
  Lineage.Proofs.World.WriteOrder

  No write is lost, reordered or hidden by writing behind.

  As long as there are calls, one of the two threads takes a step (`Inv.moves`), and each
  step brings them closer to the end (`Inv.work_lt`), so that every run comes to it.
  Wherever a run is, the calls that have returned have returned what they would if each
  update were applied when it is submitted, and a barrier returns when that is what is
  stored (`Reaches.in_order`).  The operations of a session are such calls
  (`Call.onWorld`).
-/
import Lineage.Proofs.Store.Counting
import Lineage.Proofs.World.Saving
import Lineage.Proofs.World.WriteBehind

namespace Lineage.WriteBehind

open World (applyJob settle onStore)

/-! ## Progress -/

/-- In the middle of a call there is a call. -/
theorem Inv.current {t : Threads} {s : Serial} (h : Inv t s) (hs : t.stage ≠ .ready) :
    ∃ c rest, t.calls = c :: rest := by
  unfold Inv at h
  cases hstage : t.stage with
  | ready => exact absurd hstage hs
  | raised | refused =>
    simp only [hstage] at h
    obtain ⟨⟨job, rest, hc⟩, -⟩ := h
    exact ⟨_, rest, hc⟩
  | awaiting =>
    simp only [hstage] at h
    obtain ⟨-, -, job, rest, hc, -⟩ := h
    exact ⟨_, rest, hc⟩
  | signalling | fenced | stopping =>
    simp only [hstage] at h
    obtain ⟨⟨c, rest, hc, -⟩, -⟩ := h
    exact ⟨c, rest, hc⟩
  | fencing =>
    simp only [hstage] at h
    obtain ⟨-, -, ⟨c, rest, hc, -⟩, -⟩ := h
    exact ⟨c, rest, hc⟩
  | joining | stopped =>
    simp only [hstage] at h
    obtain ⟨-, ⟨c, rest, hc, -⟩, -⟩ := h
    exact ⟨c, rest, hc⟩

/-- A writer with something before it takes a step. -/
theorem Threads.writer_moves {t : Threads} (hahead : t.ahead ≠ [] ∨ t.writer.owes ≠ 0)
    (hl : t.Listening) : ∃ t', WriterStep t t' := by
  cases hw : t.writer with
  | waiting =>
    have hchannel : t.channel ≠ [] := by
      rw [Threads.ahead, hw] at hahead
      rcases hahead with hahead | howes
      · exact hahead
      · exact absurd rfl howes
    obtain ⟨m, rest, hm⟩ := List.exists_cons_of_ne_nil hchannel
    exact ⟨_, .receive hw hm⟩
  | holding m =>
    cases m with
    | now job => exact ⟨_, .applyNow hw⟩
    | later job => exact ⟨_, .apply hw⟩
    | barrier => exact ⟨_, .reach hw⟩
    | shutdown => exact ⟨_, .exit hw⟩
  | lowering => exact ⟨_, .lower hw⟩
  | answering result => exact ⟨_, .answer hw⟩
  | exited => exact absurd hw hl

theorem Busy.writer_moves {t : Threads} {jobs : List Job} {m : Message} {store : Store}
    {raised : Nat} (h : Busy t jobs [m] store raised) : ∃ t', WriterStep t t' := by
  refine t.writer_moves (.inl ?_) h.listening
  rw [h.ahead]
  exact List.append_ne_nil_of_right_ne_nil _ (List.cons_ne_nil _ _)

/-- As long as there are calls, one of the threads takes a step. -/
theorem Inv.moves {t : Threads} {s : Serial} (h : Inv t s) (hcalls : t.calls ≠ []) :
    ∃ t', Step t t' := by
  obtain ⟨c, rest, hc⟩ := List.exists_cons_of_ne_nil hcalls
  have hlistening : t.Listening ∨ ¬ t.Listening := Classical.em _
  unfold Inv at h
  -- Where the caller waits for the writer, what it waits for is on the way or has come.
  cases hs : t.stage with
  | ready =>
    cases hf : c.fences with
    | true =>
      by_cases hp : t.pending = 0
      · exact ⟨_, .caller (.pass hc hf hs hp)⟩
      · exact ⟨_, .caller (.block hc hf hs hp)⟩
    | false =>
      cases c with
      | write job =>
        rcases hlistening with hl | hl
        · exact ⟨_, .caller (.send hc hs hl)⟩
        · exact ⟨_, .caller (.unsent hc hs hl)⟩
      | writeLater job => exact ⟨_, .caller (.raise hc hs)⟩
      | stop => exact ⟨_, .caller (.halt hc rfl hs)⟩
      | _ => cases hf
  | raised =>
    simp only [hs] at h
    obtain ⟨⟨job, rest, hc⟩, -⟩ := h
    rcases hlistening with hl | hl
    · exact ⟨_, .caller (.sendLater hc hs hl)⟩
    · exact ⟨_, .caller (.refuse hs hl)⟩
  | refused => exact ⟨_, .caller (.unraise hs)⟩
  | awaiting =>
    simp only [hs] at h
    obtain ⟨-, -, job, rest, -, ⟨jobs, hbusy⟩ | happlied⟩ := h
    · obtain ⟨t', ht'⟩ := hbusy.writer_moves
      exact ⟨t', .writer ht'⟩
    · rcases happlied.told with ⟨hw, -⟩ | ⟨-, hr⟩
      · exact ⟨_, .writer (.answer hw)⟩
      · exact ⟨_, .caller (.hear hs hr)⟩
  | signalling =>
    rcases hlistening with hl | hl
    · exact ⟨_, .caller (.signal hs hl)⟩
    · exact ⟨_, .caller (.unsignalled hs hl)⟩
  | fencing =>
    simp only [hs] at h
    obtain ⟨-, -, -, ⟨jobs, hbusy⟩ | hreached⟩ := h
    · obtain ⟨t', ht'⟩ := hbusy.writer_moves
      exact ⟨t', .writer ht'⟩
    · exact ⟨_, .caller (.reach hs hreached.reached)⟩
  | fenced =>
    simp only [hs] at h
    obtain ⟨⟨c, rest, hc, hf⟩, -⟩ := h
    cases c with
    | shutdown => exact ⟨_, .caller (.halt hc rfl hs)⟩
    | barrier | fetch _ | list _ | create _ => exact ⟨_, .caller (.access hc hs rfl)⟩
    | _ => cases hf
  | stopping =>
    cases hr : t.running with
    | true => exact ⟨_, .caller (.tell hs hr)⟩
    | false => exact ⟨_, .caller (.told hs hr)⟩
  | joining =>
    simp only [hs] at h
    obtain ⟨-, -, ⟨jobs, hbusy⟩ | hended⟩ := h
    · obtain ⟨t', ht'⟩ := hbusy.writer_moves
      exact ⟨t', .writer ht'⟩
    · exact ⟨_, .caller (.join hs hended.deaf)⟩
  | stopped =>
    simp only [hs] at h
    obtain ⟨-, ⟨c, rest, hc, hstops⟩, -⟩ := h
    cases c with
    | stop | shutdown => exact ⟨_, .caller (.leave hc hs rfl)⟩
    | _ => cases hstops

/-- More steps than the current call still takes. -/
def Stage.left : Stage → Nat
  | ready => 20
  | signalling => 18
  | fencing => 14
  | fenced => 12
  | raised | awaiting | stopping => 10
  | refused | joining => 5
  | stopped => 2

/-- How many steps the writer takes with what it has in hand. -/
def Writer.left : Writer → Nat
  | holding _ => 2
  | lowering | answering _ => 1
  | waiting | exited => 0

/-- More steps than both threads still take. -/
def Threads.work (t : Threads) : Nat :=
  (match t.calls with
    | [] => 0
    | _ :: rest => 20 * rest.length + t.stage.left) + 3 * t.channel.length + t.writer.left

theorem Threads.work_of {t : Threads} {c : Call} {rest : List Call} (hc : t.calls = c :: rest) :
    t.work = 20 * rest.length + t.stage.left + 3 * t.channel.length + t.writer.left := by
  rw [Threads.work, hc]

theorem Threads.work_giving {t : Threads} {c : Call} {rest : List Call} (hc : t.calls = c :: rest)
    (a : Answer) : (t.giving a).work = 20 * rest.length + 3 * t.channel.length + t.writer.left := by
  rw [Threads.work, Threads.giving, hc]
  cases rest with
  | nil => rfl
  | cons c' rest =>
    simp only [List.tail_cons, List.length_cons, Stage.left]
    omega

theorem WriterStep.work_lt {t t' : Threads} (hstep : WriterStep t t') : t'.work < t.work := by
  cases hstep with
  | receive hw hm =>
    simp only [Threads.work, hw, hm, Writer.left, List.length_cons]
    omega
  | exit hw =>
    simp only [Threads.work, hw, Writer.left, List.length_nil]
    omega
  | _ hw =>
    simp only [Threads.work, hw, Writer.left]
    omega

/-- A caller that stays with its call comes closer to its end, also if it sends a message. -/
theorem Threads.work_lt_of_stage {t t' : Threads} {c : Call} {rest : List Call}
    (hc : t.calls = c :: rest) (hcalls : t'.calls = t.calls) (hwriter : t'.writer = t.writer)
    (hleft : t'.stage.left + 3 * t'.channel.length < t.stage.left + 3 * t.channel.length) :
    t'.work < t.work := by
  rw [work_of hc, work_of (hcalls.trans hc), hwriter]
  omega

theorem Threads.work_lt_of_giving {t u : Threads} {c : Call} {rest : List Call}
    (hc : t.calls = c :: rest) (hcalls : u.calls = t.calls) (hwriter : u.writer = t.writer)
    (hleft : 3 * u.channel.length < t.stage.left + 3 * t.channel.length) (a : Answer) :
    (u.giving a).work < t.work := by
  rw [work_of hc, work_giving (hcalls.trans hc), hwriter]
  omega

/-- Every step is one step less. -/
theorem Inv.work_lt {t t' : Threads} {s : Serial} (h : Inv t s) (hstep : Step t t') :
    t'.work < t.work := by
  have hlength (m : Message) : (t.channel ++ [m]).length = t.channel.length + 1 :=
    List.length_append
  obtain hstep | hstep := hstep
  · -- A step of the caller is one of its current call.
    have hcalls : ∃ c rest, t.calls = c :: rest := by
      cases hstep with
      | send hc | unsent hc | raise hc | sendLater hc | pass hc | block hc | access hc | halt hc
      | leave hc => exact ⟨_, _, hc⟩
      | hear hs | unheard hs | refuse hs | unraise hs | signal hs | unsignalled hs | reach hs
      | unreached hs | tell hs | told hs | join hs => exact h.current (by rw [hs]; nofun)
    obtain ⟨c, rest, hc⟩ := hcalls
    cases hstep with
    | send _ hs | signal hs | tell hs =>
      refine Threads.work_lt_of_stage hc rfl rfl ?_
      simp only [Threads.sending, hlength, hs, Stage.left]
      omega
    | sendLater _ hs =>
      refine Threads.work_lt_of_giving (u := t.sending _) hc rfl rfl ?_ _
      simp only [Threads.sending, hlength, hs, Stage.left]
      omega
    | unsent _ hs | unheard hs =>
      refine Threads.work_lt_of_giving hc rfl rfl ?_ _
      simp only [hs, Stage.left]
      omega
    | hear hs =>
      refine Threads.work_lt_of_giving (u := { t with reply := none }) hc rfl rfl ?_ _
      simp only [hs, Stage.left]
      omega
    | unraise hs =>
      refine Threads.work_lt_of_giving (u := { t with pending := _ }) hc rfl rfl ?_ .done
      simp only [hs, Stage.left]
      omega
    | @access _ _ a store _ hs | @leave _ _ a store _ hs =>
      refine Threads.work_lt_of_giving (u := { t with store }) hc rfl rfl ?_ a
      simp only [hs, Stage.left]
      omega
    | halt _ _ hs =>
      refine Threads.work_lt_of_stage hc rfl rfl ?_
      rw [hs]
      split <;> simp only [Stage.left] <;> omega
    | raise _ hs | refuse hs | pass _ _ hs | block _ _ hs | unsignalled hs | reach hs
    | unreached hs | told hs | join hs =>
      refine Threads.work_lt_of_stage hc rfl rfl ?_
      simp only [hs, Stage.left]
      omega
  · exact hstep.work_lt

/-! ## Every run -/

namespace Threads

/-- The threads before the first call. -/
def start (store : Store) (calls : List Call) : Threads := { store, calls }

/-- The updates that have been sent and are not applied, the first one first. -/
def unwritten (t : Threads) : List Job :=
  t.ahead.filterMap fun
    | .now job | .later job => some job
    | _ => none

end Threads

theorem start_inv (store : Store) (calls : List Call) : Inv (.start store calls) { store } :=
  .inl ⟨rfl, rfl, [], rfl, rfl, rfl, nofun, nofun, rfl, rfl⟩

/-- Induction on the steps of both threads. -/
theorem Reaches.inv {store : Store} {calls : List Call} {t : Threads}
    (h : Reaches (.start store calls) t) :
    ∃ made, calls = made ++ t.calls ∧ t.answers = (Serial.run { store } made).1 ∧
      Inv t (Serial.run { store } made).2 := by
  induction h with
  | start => exact ⟨[], rfl, rfl, start_inv store calls⟩
  | @step t₁ t₂ _ hstep ih =>
    obtain ⟨made, hmade, hanswers, hinv⟩ := ih
    rcases hstep with hstep | hstep
    · rcases hinv.callerStep hstep with ⟨hc, ha, hinv'⟩ | ⟨c, hc, ha, hinv'⟩
      · exact ⟨made, hmade.trans (by rw [hc]), ha.trans hanswers, hinv'⟩
      · refine ⟨made ++ [c], ?_, ?_, ?_⟩
        · rw [hmade, hc, List.append_assoc, List.singleton_append]
        · rw [ha, hanswers, Serial.run_append_one]
        · rw [Serial.run_append_one]
          exact hinv'
    · obtain ⟨-, hc, ha, -⟩ := hstep.frame
      exact ⟨made, hmade.trans (by rw [hc]), ha.trans hanswers, hinv.writerStep hstep⟩

/-- Between two calls what is still unwritten, applied one by one, makes the store what it should
be. -/
theorem Even.unwritten {t : Threads} {s : Serial} (h : Even t s 0) :
    t.unwritten.foldl applyJob t.store = s.store := by
  rcases h with ⟨-, -, jobs, hbusy⟩ | ⟨-, -, hended⟩
  · have hjobs : t.unwritten = jobs := by
      rw [Threads.unwritten, hbusy.ahead, List.append_nil, List.filterMap_map]
      exact List.filterMap_some
    rw [hjobs]
    exact hbusy.stored
  · rw [Threads.unwritten, hended.ahead]
    exact hended.stored

/-! ## Sessions -/

/-- What a session does to its store in a call. -/
def Call.onWorld : Call → StateM World Answer
  | write job => return .written (← World.writeNow job.id job.update)
  | writeLater job => do
    World.writeLater job.id job.update
    return .done
  | barrier => do
    settle
    return .done
  | stop => do
    World.stopWriting
    return .done
  | fetch id => do
    settle
    return .fetched (← onStore (Store.fetch id))
  | list recycledToo => do
    settle
    return .listed (← onStore (Store.list recycledToo))
  | create r => do
    settle
    return .created (← onStore (Store.create r))
  | shutdown => do
    World.stopWriting
    return .disconnected (← onStore Store.disconnect)

/-- The calls of a session, one after the other. -/
def onWorld (w : World) : List Call → List Answer × World
  | [] => ([], w)
  | c :: calls =>
    let (answer, w) := c.onWorld w
    let (answers, w) := onWorld w calls
    (answer :: answers, w)

/-- With its waiting writes applied, what a session has stored is what it should be. -/
structure Standing (w : World) (s : Serial) : Prop where
  stored : w.session.queue.foldl applyJob w.store = s.store
  taking : w.session.writing = s.taking

/-- A call of a session returns what it should, and leaves it standing. -/
theorem Standing.call {w : World} {s : Serial} (h : Standing w s) (c : Call) :
    (c.onWorld w).1 = (s.perform c).1 ∧ Standing (c.onWorld w).2 (s.perform c).2 := by
  obtain ⟨stored, taking⟩ := s
  obtain ⟨hstored, htaking⟩ := h
  simp only at hstored htaking
  subst hstored
  cases c with
  | write job =>
    cases taking with
    | true =>
      have hrun : (Call.write job).onWorld w = _ :=
        congrArg (Prod.map Answer.written id) (World.writeNow_run htaking job.id job.update)
      rw [hrun]
      exact ⟨rfl, rfl, htaking⟩
    | false =>
      have hrun : (Call.write job).onWorld w = _ :=
        congrArg (Prod.map Answer.written id) (World.writeNow_stopped htaking job.id job.update)
      rw [hrun]
      exact ⟨rfl, rfl, htaking⟩
  | writeLater job =>
    cases taking with
    | true =>
      have hrun : (Call.writeLater job).onWorld w = _ :=
        congrArg (Prod.map (fun _ => Answer.done) id) (World.writeLater_run htaking job.id job.update)
      rw [hrun]
      exact ⟨rfl, List.foldl_append, htaking⟩
    | false =>
      have hrun : (Call.writeLater job).onWorld w = _ :=
        congrArg (Prod.map (fun _ => Answer.done) id)
          (World.writeLater_stopped htaking job.id job.update)
      rw [hrun]
      exact ⟨rfl, rfl, htaking⟩
  | barrier => exact ⟨rfl, rfl, htaking⟩
  | stop => exact ⟨rfl, rfl, rfl⟩
  | fetch id => exact ⟨rfl, rfl, htaking⟩
  | list recycledToo => exact ⟨rfl, rfl, htaking⟩
  | create r => exact ⟨rfl, rfl, htaking⟩
  | shutdown => exact ⟨rfl, rfl, rfl⟩

/-- Induction on the calls. -/
theorem Standing.calls {w : World} {s : Serial} (h : Standing w s) (calls : List Call) :
    (onWorld w calls).1 = (s.run calls).1 ∧ Standing (onWorld w calls).2 (s.run calls).2 := by
  induction calls generalizing w s with
  | nil => exact ⟨rfl, h⟩
  | cons c calls ih =>
    obtain ⟨hanswer, hstanding⟩ := h.call c
    obtain ⟨hanswers, hstanding'⟩ := ih hstanding
    refine ⟨?_, hstanding'⟩
    show (c.onWorld w).1 :: (onWorld (c.onWorld w).2 calls).1 =
      (s.perform c).1 :: (Serial.run (s.perform c).2 calls).1
    rw [hanswer, hanswers]

/-! ## The result -/

/-- Writing behind loses, reorders and hides no write.  Wherever two threads come to, whatever the
order of their steps:

* what the calls so far have returned is what they would have if every update had been applied when
  it was submitted, each write the outcome of its own update among them;
* an update that fails leaves what is stored as it was;
* when a barrier has returned, just that is stored, and nothing is unwritten;
* between calls it is stored once what is unwritten has been applied in order;
* once writing has been stopped, it is stored, and nothing is unwritten;
* a session does the same with its queue of waiting writes;
* unless all calls have returned a thread takes a step, and no run goes on for ever. -/
theorem Reaches.in_order {store : Store} {calls : List Call} {t : Threads}
    (h : Reaches (.start store calls) t) :
    ∃ made s, calls = made ++ t.calls ∧ Serial.run { store } made = (t.answers, s) ∧
      (∀ (job : Job) (before : Store) (e : StoreError),
        (Store.update job.id job.update before).1 = .error e → applyJob before job = before) ∧
      (t.stage = .fenced → t.store = s.store ∧ t.unwritten = []) ∧
      (t.stage = .ready → t.unwritten.foldl applyJob t.store = s.store) ∧
      (t.stage = .ready → s.taking = false → t.store = s.store ∧ t.unwritten = []) ∧
      (∀ w : World, w.store = store → w.session.queue = [] → w.session.writing = true →
        (onWorld w made).1 = t.answers ∧ Standing (onWorld w made).2 s) ∧
      (t.calls ≠ [] → ∃ t', Step t t') ∧ ∀ t', Step t t' → t'.work < t.work := by
  obtain ⟨made, hmade, hanswers, hinv⟩ := h.inv
  have hnone {t : Threads} (hahead : t.ahead = []) : t.unwritten = [] := by
    rw [Threads.unwritten, hahead]
    rfl
  refine ⟨made, _, hmade, Prod.ext hanswers.symm rfl, fun _ _ _ hfails => Store.update_failed hfails,
    fun hs => ?_, fun hs => ?_, fun hs htaking => ?_, fun w hstore hqueue hwriting => ?_, hinv.moves,
    fun t' hstep => hinv.work_lt hstep⟩
  · unfold Inv at hinv
    rw [hs] at hinv
    exact ⟨hinv.2.2.2, hnone hinv.2.2.1⟩
  · unfold Inv at hinv
    rw [hs] at hinv
    exact hinv.unwritten
  · unfold Inv at hinv
    rw [hs] at hinv
    rcases hinv with ⟨-, htaking', -⟩ | ⟨-, -, hended⟩
    · rw [htaking] at htaking'
      cases htaking'
    · exact ⟨hended.stored, hnone hended.ahead⟩
  · have hstanding : Standing w { store } := ⟨by rw [hqueue, hstore]; rfl, hwriting⟩
    obtain ⟨hsame, hstanding'⟩ := hstanding.calls made
    exact ⟨hsame.trans hanswers.symm, hstanding'⟩

/-- An update of the object `#7`. -/
def first : Job := ⟨⟨7⟩, { recycled := some true }⟩

/-- An update of the object `#0`. -/
def second : Job := ⟨.root, { recycled := some true }⟩

/-- The calls that submit both and wait for them. -/
def twoThenBarrier : List Call := [.writeLater first, .writeLater second, .barrier]

/-- A run of both threads through `twoThenBarrier`, whatever is stored. -/
theorem twoThenBarrier_fenced (store : Store) :
    ∃ t, Reaches (.start store twoThenBarrier) t ∧ t.stage = .fenced ∧ t.calls = [.barrier] := by
  have h := Reaches.start (t := .start store twoThenBarrier)
  have h := h.step (.caller (.raise rfl rfl))
  have h := h.step (.caller (.sendLater rfl rfl nofun))
  have h := h.step (.writer (.receive rfl rfl))
  have h := h.step (.caller (.raise rfl rfl))
  have h := h.step (.writer (.apply rfl))
  have h := h.step (.caller (.sendLater rfl rfl nofun))
  have h := h.step (.writer (.lower rfl))
  have h := h.step (.caller (.block rfl rfl rfl nofun))
  have h := h.step (.caller (.signal rfl nofun))
  have h := h.step (.writer (.receive rfl rfl))
  have h := h.step (.writer (.apply rfl))
  have h := h.step (.writer (.lower rfl))
  have h := h.step (.writer (.receive rfl rfl))
  have h := h.step (.writer (.reach rfl))
  have h := h.step (.caller (.reach rfl rfl))
  exact ⟨_, h, rfl, rfl⟩

/-- A store that holds `#0` and no other object. -/
def rootOnly : Store :=
  .memory { connected := true, records := [(.root, .bare .root .nothing .epoch)], nextId := 1 }

/-- The first update fails, for its object is not stored.  It does not stand in the way of the second,
which is stored when the barrier returns. -/
theorem in_order_behind_failing :
    (Store.update first.id first.update rootOnly).1 = .error (.objectNotFound ⟨7⟩) ∧
    ∃ t, Reaches (.start rootOnly twoThenBarrier) t ∧ t.stage = .fenced ∧
      t.store = applyJob rootOnly second ∧
      (Store.fetch .root t.store).1 =
        .ok (some { Record.bare .root .nothing .epoch with recycled := true }) := by
  have hfails : (Store.update first.id first.update rootOnly).1 = .error (.objectNotFound ⟨7⟩) := rfl
  obtain ⟨t, h, hfenced, hcalls⟩ := twoThenBarrier_fenced rootOnly
  obtain ⟨made, s, hmade, hrun, hkept, hstored, -⟩ := h.in_order
  rw [hcalls] at hmade
  obtain rfl : made = [.writeLater first, .writeLater second] :=
    (List.append_cancel_right (show [_, _] ++ [Call.barrier] = _ from hmade)).symm
  have hs : s.store = applyJob (applyJob rootOnly first) second := congrArg (Serial.store ·.2) hrun.symm
  have hstore : t.store = applyJob rootOnly second := by
    rw [(hstored hfenced).1, hs, hkept first rootOnly _ hfails]
  refine ⟨hfails, t, h, hfenced, hstore, ?_⟩
  rw [hstore]
  rfl

end Lineage.WriteBehind
