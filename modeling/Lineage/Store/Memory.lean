/-
  Lineage.Store.Memory

  What stores have in common, and the store that keeps whole records in a dictionary.

  An operation reads and changes the store it works on; one that fails may still have
  changed it (a failed read is counted, say).

  Ids are handed out in order from zero and never twice.  The store counts the reads
  and the writes that reach it.
-/
import Lineage.Record.Basic

namespace Lineage

inductive StoreError where
  | notConnected
  | objectNotFound (id : ObjectId)
  /-- What is stored for an object cannot be read back. -/
  | undecodable (id : ObjectId) (why : String)
  | backend (why : String)
  deriving DecidableEq

/-- The text of the error. -/
def StoreError.message : StoreError → String
  | .notConnected => "Store is not connected"
  | .objectNotFound id => "Object not found: " ++ id.literal
  | .undecodable id why => "Could not decode " ++ id.literal ++ ": " ++ why
  | .backend why => "Storage backend failure: " ++ why

/-- An operation on a store of type `σ`. -/
abbrev StoreOp (σ α : Type) := ExceptT StoreError (StateM σ) α

structure MemoryStore where
  connected : Bool := false
  records : Dict ObjectId Record := []
  /-- The number of the next object. -/
  nextId : Int64 := 0
  reads : Nat := 0
  writes : Nat := 0

namespace MemoryStore

/-- The store, as long as it is connected. -/
def opened : StoreOp MemoryStore MemoryStore := do
  let store ← get
  if store.connected then return store else throw .notConnected

def connect : StoreOp MemoryStore Unit :=
  modify fun store => { store with connected := true }

def disconnect : StoreOp MemoryStore Unit :=
  modify fun store => { store with connected := false }

/-- The record of an object. -/
def fetch (id : ObjectId) : StoreOp MemoryStore (Option Record) := do
  let store ← opened
  set { store with reads := store.reads + 1 }
  return store.records.get? id

/-- Store a record under the next id. -/
def create (record : Record) : StoreOp MemoryStore ObjectId := do
  let store ← opened
  let id : ObjectId := ⟨store.nextId⟩
  set { store with
    records := store.records.put id { record with id }
    nextId := store.nextId + 1
    writes := store.writes + 1 }
  return id

/-- Write the paths of an update into a stored record. -/
def update (id : ObjectId) (u : Update) : StoreOp MemoryStore Unit := do
  let store ← opened
  match store.records.get? id with
  | none => throw (.objectNotFound id)
  | some record =>
    set { store with
      records := store.records.put id (u.applyTo record)
      writes := store.writes + 1 }

/-- Remove a record.  Whether there was one. -/
def delete (id : ObjectId) : StoreOp MemoryStore Bool := do
  let store ← opened
  if store.records.has id then
    set { store with records := store.records.remove id, writes := store.writes + 1 }
    return true
  else return false

/-- The stored records in the order of their ids. -/
def list (recycledToo : Bool) : StoreOp MemoryStore (List Record) := do
  let store ← opened
  set { store with reads := store.reads + 1 }
  return store.records.values.filter fun r => recycledToo || !r.recycled

/-- Replace a record as a whole, under the id it carries. -/
def put (record : Record) : StoreOp MemoryStore Unit := do
  let store ← opened
  set { store with
    records := store.records.put record.id record
    nextId := max store.nextId (record.id.number + 1)
    writes := store.writes + 1 }

end MemoryStore

end Lineage
