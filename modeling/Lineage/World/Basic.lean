/-
  Lineage.World.Basic

  The state of a running system: the store, and what a session keeps of it in memory.

  A session holds copies of records with the paths changed in them since they were last
  written.  A handle names a copy; the copy that `resident` holds for an id is the one
  that later operations on that id find, while older copies live on for those who still
  hold a handle on them.
-/
import Lineage.Program.Basic
import Lineage.Store.Any
import Lineage.World.Failure

namespace Lineage

/-- A set of names. -/
abbrev NameSet := Dict String Unit

namespace NameSet

def add (s : NameSet) (name : String) : NameSet :=
  Dict.put s name ()

/-- The union of two sets. -/
def merge (s t : NameSet) : NameSet :=
  t.foldl (fun s e => s.add e.1) s

end NameSet

/-- The paths of a record changed since it was last written. -/
structure Dirty where
  /-- The parent or the recycled flag. -/
  header : Bool := false
  properties : NameSet := []
  methods : NameSet := []

namespace Dirty

def isClean (d : Dirty) : Bool :=
  !d.header && d.properties.isEmpty && d.methods.isEmpty

/-- The paths of both. -/
def merge (d e : Dirty) : Dirty :=
  ⟨d.header || e.header, d.properties.merge e.properties, d.methods.merge e.methods⟩

end Dirty

/-- A record in memory, and what has changed in it. -/
structure Copy where
  record : Record
  dirty : Dirty := {}

namespace Copy

/-- What stands under each changed name now, or that it is gone. -/
def current {α : Type} (names : NameSet) (d : Dict String α) : Dict String (Option α) :=
  names.map fun (name, _) => (name, d.get? name)

/-- The write of the changed paths. -/
def update (c : Copy) (now : Timestamp) : Update where
  parent := if c.dirty.header then some c.record.parent else none
  recycled := if c.dirty.header then some c.record.recycled else none
  modified := some now
  properties := current c.dirty.properties c.record.properties.entries
  methods := current c.dirty.methods c.record.methods.entries

/-- The copy as it is when its changes are on their way to the store. -/
def written (c : Copy) (now : Timestamp) : Copy :=
  { record := { c.record with modified := now } }

end Copy

/-- A name for one of the copies of a session. -/
structure Handle where
  index : Nat
  deriving DecidableEq

/-- A write that waits for its turn. -/
structure Job where
  id : ObjectId
  update : Update

structure Session where
  runtime : RuntimeSettings
  copies : Array Copy := #[]
  resident : Dict ObjectId Handle := []
  /-- Compiled methods by owner and name. -/
  compiled : Dict ObjectId (Dict String Program) := []
  /-- How often a method has been compiled. -/
  compilations : Nat := 0
  /-- The writes that nobody waits for, oldest first. -/
  queue : List Job := []
  /-- Whether writes are still taken. -/
  writing : Bool := true

namespace Session

/-- The copy that a handle names. -/
def copyOf (s : Session) (h : Handle) : Copy :=
  s.copies.getD h.index ⟨.bare .nothing .nothing .epoch, {}⟩

/-- How many compiled methods are kept. -/
def compiledCount (s : Session) : Nat :=
  (s.compiled.flatMap fun e => e.2).length

end Session

structure World where
  store : Store
  session : Session
  /-- The time that changes are marked with. -/
  clock : Timestamp := .epoch
  /-- What random numbers are drawn from. -/
  seed : Nat := 0

/-- An operation on a world.  What it changed before it failed stays changed. -/
abbrev Action (α : Type) := ExceptT RuntimeError (StateM World) α

namespace World

/-- Run an operation on the store. -/
def onStore {α : Type} (op : StoreOp Store α) : StateM World (Except StoreError α) := fun w =>
  let (result, store) := op.run.run w.store
  (result, { w with store })

/-- Run an operation on the store whose failure is a failure of the runtime. -/
def access {α : Type} (op : StoreOp Store α) : Action α := do
  match ← onStore op with
  | .ok a => return a
  | .error e => throw (.persistence e)

def onSession (change : Session → Session) : StateM World Unit :=
  modify fun w => { w with session := change w.session }

/-- The copy that a handle names. -/
def copy (h : Handle) : StateM World Copy := do
  return (← get).session.copyOf h

/-- The record of the copy that a handle names. -/
def recordOf (h : Handle) : StateM World Record := do
  return (← copy h).record

/-- Change the copy that a handle names. -/
def onCopy (h : Handle) (change : Copy → Copy) : StateM World Unit :=
  onSession fun s => { s with copies := s.copies.modify h.index change }

/-- Change the record of the copy that a handle names. -/
def onRecord (h : Handle) (change : Record → Record) : StateM World Unit :=
  onCopy h fun c => { c with record := change c.record }

/-- Mark paths of a copy as changed. -/
def onDirty (h : Handle) (change : Dirty → Dirty) : StateM World Unit :=
  onCopy h fun c => { c with dirty := change c.dirty }

/-! ## Writing behind -/

/-- The store after a waiting write.  One that fails changes nothing that is stored. -/
def applyJob (store : Store) (job : Job) : Store :=
  ((Store.update job.id job.update).run.run store).2

/-- Apply the waiting writes in order. -/
def settle : StateM World Unit :=
  modify fun w =>
    { w with
      store := w.session.queue.foldl applyJob w.store
      session := { w.session with queue := [] } }

/-- Write at once, after the writes that wait. -/
def writeNow (id : ObjectId) (u : Update) : StateM World (Except StoreError Unit) := do
  if (← get).session.writing then
    settle
    onStore (Store.update id u)
  else return .error .notConnected

/-- Let a write wait.  Once writing has stopped it is dropped. -/
def writeLater (id : ObjectId) (u : Update) : StateM World Unit :=
  onSession fun s => if s.writing then { s with queue := s.queue ++ [⟨id, u⟩] } else s

/-- Apply the waiting writes and take no more. -/
def stopWriting : StateM World Unit := do
  settle
  onSession fun s => { s with writing := false }

end World

end Lineage
