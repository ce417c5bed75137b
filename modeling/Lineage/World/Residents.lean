/-
  Lineage.World.Residents

  Bringing objects into memory and dropping them again.

  Every read of the store first applies the waiting writes.  A record that is read
  while a copy of it is resident does not replace that copy.
-/
import Lineage.World.Basic

namespace Lineage.World

/-- The resident copy of an object.  The store is not asked. -/
def cached (id : ObjectId) : StateM World (Option Handle) := do
  return (← get).session.resident.get? id

/-- A handle on a new copy, which becomes the resident one. -/
def keep (record : Record) : StateM World Handle := fun w =>
  let h : Handle := ⟨w.session.copies.size⟩
  (h, { w with
    session := { w.session with
      copies := w.session.copies.push { record }
      resident := w.session.resident.put record.id h } })

/-- Keep a record that was just read, unless a copy of its object is resident. -/
def adopt (record : Record) : StateM World Handle := do
  match ← cached record.id with
  | some h => return h
  | none => keep record

/-- The stored record of an object. -/
def fetch (id : ObjectId) : Action (Option Record) := do
  settle
  access (Store.fetch id)

/-- The object with this id, brought into memory if need be.  Recycled objects count as missing
unless they are asked for. -/
def loadWith (recycledToo : Bool) (id : ObjectId) : Action (Option Handle) := do
  match ← cached id with
  | some h =>
    if (← recordOf h).recycled && !recycledToo then return none else return some h
  | none =>
    match ← fetch id with
    | none => return none
    | some record =>
      if record.recycled && !recycledToo then return none
      let h ← adopt record
      if (← recordOf h).recycled && !recycledToo then return none else return some h

/-- The live object with this id. -/
def load (id : ObjectId) : Action (Option Handle) :=
  loadWith false id

/-- The live object with this id, whose absence is an error. -/
def object (id : ObjectId) : Action Handle := do
  match ← load id with
  | some h => return h
  | none => throw (.notFound id)

/-- Store a new object, and keep a copy of it. -/
def create (parent : ObjectId) (properties : OrderedDict String Value)
    (methods : OrderedDict String MethodDef) : Action Handle := do
  let record := { Record.bare .nothing parent (← get).clock with properties, methods }
  settle
  let id ← access (Store.create record)
  adopt { record with id }

/-- Drop the resident copy of an object, and the compiled methods it owns. -/
def invalidate (id : ObjectId) : StateM World Unit :=
  onSession fun s =>
    { s with resident := s.resident.remove id, compiled := s.compiled.remove id }

/-- Adopt records, and keep handles on those that are wanted. -/
def adoptAll (recycledToo : Bool) : List Record → StateM World (List Handle)
  | [] => return []
  | record :: rest => do
    let h ← adopt record
    let wanted := recycledToo || !(← recordOf h).recycled
    let more ← adoptAll recycledToo rest
    return if wanted then h :: more else more

/-- All live objects in the order of their ids, or all objects. -/
def list (recycledToo : Bool) : Action (List Handle) := do
  settle
  adoptAll recycledToo (← access (Store.list recycledToo))

end Lineage.World
