/-
  Lineage.Proofs.World.Threads

  Writing behind with two threads.

  The thread that runs the session (the caller) sends messages through a channel to a
  thread that writes (the writer).  The caller does not wait for most writes; a counter
  says how many of these are still to be applied, so that a barrier can return at once
  when there are none.  The two threads take steps in any order (`Step`).

  `Serial` is what it should come to: every update applied when it is submitted.
-/
import Lineage.World.Changes

namespace Lineage.WriteBehind

open World (applyJob)

/-! ## Calls -/

/-- What the caller does, one call after the other. -/
inductive Call where
  | write (job : Job)
  | writeLater (job : Job)
  | barrier
  | stop
  | fetch (id : ObjectId)
  | list (recycledToo : Bool)
  | create (r : Record)
  | shutdown

/-- What a call returns. -/
inductive Answer where
  | done
  | written (result : Except StoreError Unit)
  | fetched (result : Except StoreError (Option Record))
  | listed (result : Except StoreError (List Record))
  | created (result : Except StoreError ObjectId)
  | disconnected (result : Except StoreError Unit)

namespace Call

/-- Whether the call begins with a barrier. -/
def fences : Call → Bool
  | barrier | fetch _ | list _ | create _ | shutdown => true
  | write _ | writeLater _ | stop => false

/-- Whether the call ends the writer. -/
def stops : Call → Bool
  | stop | shutdown => true
  | _ => false

/-- What the call does with the store itself once its barrier has returned, if that is all. -/
def access : Call → Store → Option (Answer × Store)
  | barrier, store => some (.done, store)
  | fetch id, store => some (.fetched (Store.fetch id store).1, (Store.fetch id store).2)
  | list recycledToo, store =>
    some (.listed (Store.list recycledToo store).1, (Store.list recycledToo store).2)
  | create r, store => some (.created (Store.create r store).1, (Store.create r store).2)
  | _, _ => none

/-- What the call does with the store once the writer has ended. -/
def leave : Call → Store → Option (Answer × Store)
  | stop, store => some (.done, store)
  | shutdown, store => some (.disconnected (Store.disconnect store).1, (Store.disconnect store).2)
  | _, _ => none

end Call

/-- A store in which every update is applied when it is submitted, as long as updates are taken. -/
structure Serial where
  store : Store
  taking : Bool := true

namespace Serial

/-- A call. -/
def perform (s : Serial) (c : Call) : Answer × Serial :=
  match c with
  | .write job =>
    if s.taking then
      (.written (Store.update job.id job.update s.store).1, { s with store := applyJob s.store job })
    else (.written (.error .notConnected), s)
  | .writeLater job =>
    (.done, if s.taking then { s with store := applyJob s.store job } else s)
  | .barrier => (.done, s)
  | .fetch id => (.fetched (Store.fetch id s.store).1, { s with store := (Store.fetch id s.store).2 })
  | .list recycledToo =>
    (.listed (Store.list recycledToo s.store).1,
      { s with store := (Store.list recycledToo s.store).2 })
  | .create r =>
    (.created (Store.create r s.store).1, { s with store := (Store.create r s.store).2 })
  | .stop => (.done, { s with taking := false })
  | .shutdown =>
    (.disconnected (Store.disconnect s.store).1, ⟨(Store.disconnect s.store).2, false⟩)

/-- The calls made one by one: what they return, and what they come to. -/
def run (s : Serial) : List Call → List Answer × Serial
  | [] => ([], s)
  | c :: calls =>
    let (answer, s) := s.perform c
    let (answers, s) := run s calls
    (answer :: answers, s)

theorem run_append_one (s : Serial) (calls : List Call) (c : Call) :
    s.run (calls ++ [c]) =
      ((s.run calls).1 ++ [((s.run calls).2.perform c).1], ((s.run calls).2.perform c).2) := by
  induction calls generalizing s with
  | nil => rfl
  | cons c' calls ih =>
    simp only [List.cons_append, run, ih]

end Serial

/-! ## Threads -/

/-- What the writer is sent. -/
inductive Message where
  /-- An update whose outcome is waited for. -/
  | now (job : Job)
  /-- An update that is counted instead. -/
  | later (job : Job)
  | barrier
  | shutdown

/-- What the writer is about to do. -/
inductive Writer where
  | waiting
  | holding (m : Message)
  /-- A counted update has been applied, and the count is still to be lowered. -/
  | lowering
  | answering (result : Except StoreError Unit)
  | exited

/-- How far the caller is with its call. -/
inductive Stage where
  | ready
  /-- The count has been raised, and the update is still to be sent. -/
  | raised
  /-- The update could not be sent, and the count is still to be lowered. -/
  | refused
  /-- The outcome of an update is waited for. -/
  | awaiting
  /-- The count was not zero, and the barrier is still to be sent. -/
  | signalling
  /-- It is waited until the barrier is reached. -/
  | fencing
  /-- The barrier has returned. -/
  | fenced
  /-- The writer is still to be told to end. -/
  | stopping
  /-- It is waited until the writer has ended. -/
  | joining
  | stopped

structure Threads where
  store : Store
  /-- The calls that have not returned, the current one first. -/
  calls : List Call
  /-- What the calls so far have returned. -/
  answers : List Answer := []
  stage : Stage := .ready
  writer : Writer := .waiting
  channel : List Message := []
  /-- How many updates that nobody waits for are not known to be applied. -/
  pending : Nat := 0
  /-- The outcome of an update, from when it is told until it is heard. -/
  reply : Option (Except StoreError Unit) := none
  /-- Whether the barrier has been reached, which the caller has not heard. -/
  reached : Bool := false
  /-- Whether nobody has told the writer to end. -/
  running : Bool := true

namespace Threads

/-- The current call returns. -/
def giving (t : Threads) (a : Answer) : Threads :=
  { t with answers := t.answers ++ [a], calls := t.calls.tail, stage := .ready }

def sending (t : Threads) (m : Message) : Threads :=
  { t with channel := t.channel ++ [m] }

/-- Whether messages can still be sent, which they can until the writer has ended. -/
def Listening (t : Threads) : Prop := t.writer ≠ .exited

end Threads

/-- A step of the caller. -/
inductive CallerStep : Threads → Threads → Prop
  | send {t job rest} (hc : t.calls = .write job :: rest) (hs : t.stage = .ready)
      (hl : t.Listening) : CallerStep t { t.sending (.now job) with stage := .awaiting }
  | unsent {t job rest} (hc : t.calls = .write job :: rest) (hs : t.stage = .ready)
      (hl : ¬ t.Listening) : CallerStep t (t.giving (.written (.error .notConnected)))
  | hear {t result} (hs : t.stage = .awaiting) (hr : t.reply = some result) :
      CallerStep t ({ t with reply := none }.giving (.written result))
  | unheard {t} (hs : t.stage = .awaiting) (hr : t.reply = none) (hl : ¬ t.Listening) :
      CallerStep t (t.giving (.written (.error .notConnected)))
  | raise {t job rest} (hc : t.calls = .writeLater job :: rest) (hs : t.stage = .ready) :
      CallerStep t { t with pending := t.pending + 1, stage := .raised }
  | sendLater {t job rest} (hc : t.calls = .writeLater job :: rest) (hs : t.stage = .raised)
      (hl : t.Listening) : CallerStep t ((t.sending (.later job)).giving .done)
  | refuse {t} (hs : t.stage = .raised) (hl : ¬ t.Listening) :
      CallerStep t { t with stage := .refused }
  | unraise {t} (hs : t.stage = .refused) :
      CallerStep t ({ t with pending := t.pending - 1 }.giving .done)
  | pass {t c rest} (hc : t.calls = c :: rest) (hf : c.fences = true) (hs : t.stage = .ready)
      (hp : t.pending = 0) : CallerStep t { t with stage := .fenced }
  | block {t c rest} (hc : t.calls = c :: rest) (hf : c.fences = true) (hs : t.stage = .ready)
      (hp : t.pending ≠ 0) : CallerStep t { t with stage := .signalling }
  | signal {t} (hs : t.stage = .signalling) (hl : t.Listening) :
      CallerStep t { t.sending .barrier with stage := .fencing }
  | unsignalled {t} (hs : t.stage = .signalling) (hl : ¬ t.Listening) :
      CallerStep t { t with stage := .fenced }
  | reach {t} (hs : t.stage = .fencing) (hr : t.reached = true) :
      CallerStep t { t with reached := false, stage := .fenced }
  | unreached {t} (hs : t.stage = .fencing) (hr : t.reached = false) (hl : ¬ t.Listening) :
      CallerStep t { t with stage := .fenced }
  | access {t c rest a store} (hc : t.calls = c :: rest) (hs : t.stage = .fenced)
      (ha : c.access t.store = some (a, store)) : CallerStep t ({ t with store }.giving a)
  | halt {t c rest} (hc : t.calls = c :: rest) (hh : c.stops = true)
      (hs : t.stage = if c.fences then .fenced else .ready) :
      CallerStep t { t with stage := .stopping }
  | tell {t} (hs : t.stage = .stopping) (hr : t.running = true) :
      CallerStep t { t.sending .shutdown with running := false, stage := .joining }
  | told {t} (hs : t.stage = .stopping) (hr : t.running = false) :
      CallerStep t { t with stage := .stopped }
  | join {t} (hs : t.stage = .joining) (hl : ¬ t.Listening) : CallerStep t { t with stage := .stopped }
  | leave {t c rest a store} (hc : t.calls = c :: rest) (hs : t.stage = .stopped)
      (ha : c.leave t.store = some (a, store)) : CallerStep t ({ t with store }.giving a)

/-- A step of the writer. -/
inductive WriterStep : Threads → Threads → Prop
  | receive {t m rest} (hw : t.writer = .waiting) (hm : t.channel = m :: rest) :
      WriterStep t { t with writer := .holding m, channel := rest }
  | apply {t job} (hw : t.writer = .holding (.later job)) :
      WriterStep t { t with store := applyJob t.store job, writer := .lowering }
  | lower {t} (hw : t.writer = .lowering) :
      WriterStep t { t with pending := t.pending - 1, writer := .waiting }
  | applyNow {t job} (hw : t.writer = .holding (.now job)) :
      WriterStep t { t with
        store := applyJob t.store job
        writer := .answering (Store.update job.id job.update t.store).1 }
  | answer {t result} (hw : t.writer = .answering result) :
      WriterStep t { t with reply := some result, writer := .waiting }
  | reach {t} (hw : t.writer = .holding .barrier) :
      WriterStep t { t with reached := true, writer := .waiting }
  | exit {t} (hw : t.writer = .holding .shutdown) :
      WriterStep t { t with writer := .exited, channel := [] }

/-- A step of either thread. -/
inductive Step (t t' : Threads) : Prop
  | caller (h : CallerStep t t')
  | writer (h : WriterStep t t')

/-- The states that two threads come to from a state, in whatever order they take their steps. -/
inductive Reaches (t : Threads) : Threads → Prop
  | start : Reaches t t
  | step {t₁ t₂ : Threads} (h : Reaches t t₁) (hstep : Step t₁ t₂) : Reaches t t₂

end Lineage.WriteBehind
