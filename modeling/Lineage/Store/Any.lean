/-
  Lineage.Store.Any

  A store of either kind.
-/
import Lineage.Store.Memory
import Lineage.Store.Durable
import Lineage.Settings

namespace Lineage

inductive Store where
  | memory (store : MemoryStore)
  | durable (store : DurableStore)

namespace Store

/-- Run an operation on a store of one kind. -/
def lift {σ α : Type} (wrap : σ → Store) (op : StoreOp σ α) (store : σ) :
    Except StoreError α × Store :=
  let (result, store) := op.run.run store
  (result, wrap store)

/-- An operation that each kind of store has. -/
def either {α : Type} (onMemory : StoreOp MemoryStore α) (onDurable : StoreOp DurableStore α) :
    StoreOp Store α :=
  fun
  | .memory store => lift .memory onMemory store
  | .durable store => lift .durable onDurable store

def connect : StoreOp Store Unit :=
  either MemoryStore.connect DurableStore.connect

def disconnect : StoreOp Store Unit :=
  either MemoryStore.disconnect DurableStore.disconnect

/-- The record of an object. -/
def fetch (id : ObjectId) : StoreOp Store (Option Record) :=
  either (MemoryStore.fetch id) (DurableStore.fetch id)

/-- Store a record under the next id. -/
def create (record : Record) : StoreOp Store ObjectId :=
  either (MemoryStore.create record) (DurableStore.create record)

/-- Write the paths of an update into a stored record. -/
def update (id : ObjectId) (u : Update) : StoreOp Store Unit :=
  either (MemoryStore.update id u) (DurableStore.update id u)

/-- Remove a record.  Whether there was one. -/
def delete (id : ObjectId) : StoreOp Store Bool :=
  either (MemoryStore.delete id) (DurableStore.delete id)

/-- The stored records in the order of their ids. -/
def list (recycledToo : Bool) : StoreOp Store (List Record) :=
  either (MemoryStore.list recycledToo) (DurableStore.list recycledToo)

/-- Replace a record as a whole.  A durable store does not offer this. -/
def put (record : Record) : StoreOp Store Unit :=
  either (MemoryStore.put record) (throw (.backend "records cannot be replaced"))

/-- Overwrite the stored next id and open the store again.  Nothing of the kind is kept in
memory. -/
def damageSequence (bytes : List UInt8) : StoreOp Store Unit :=
  either (pure ()) (modify fun store => store.damageSequence bytes)

/-- How many records are stored. -/
def size : Store → Nat
  | .memory store => store.records.length
  | .durable store => store.objects.length

/-- An empty store of the kind that the settings ask for: durable where there is a path. -/
def ofSettings (s : DatabaseSettings) : Store :=
  if s.path.isSome then .durable {} else .memory {}

end Store

end Lineage
