/-
  Lineage.Store.Durable

  The store that keeps records as JSON text in key-ordered tables.

  A record is spread over three tables, so that a change to one property or method
  touches one entry: its header under the eight bytes of its id, and each of its
  properties and methods under those bytes followed by the name.  As keys are ordered
  by their bytes, the entries of one object stand together.  The next id is stored as
  eight bytes, the least significant first.

  What is written is what is read back only as far as its JSON text says so.  A whole
  store is one text as it lies in a file (`DurableStore.image`).
-/
import Lineage.Json.Codec
import Lineage.Json.Printer
import Lineage.Json.Reader
import Lineage.Store.Memory

namespace Lineage

/-- A table: texts under keys, in the order of the keys' bytes. -/
abbrev Table := Dict (List UInt8) String

/-- A record without its properties and methods. -/
structure Header where
  id : ObjectId
  parent : ObjectId
  created : Timestamp
  modified : Timestamp
  recycled : Bool

namespace Header

def ofRecord (r : Record) : Header :=
  ⟨r.id, r.parent, r.created, r.modified, r.recycled⟩

/-- The record with this header. -/
def withContents (h : Header) (properties : OrderedDict String Value)
    (methods : OrderedDict String MethodDef) : Record :=
  ⟨h.id, h.parent, properties, methods, h.created, h.modified, h.recycled⟩

/-- The header after an update. -/
def apply (h : Header) (u : Update) : Header :=
  { h with
    parent := u.parent.getD h.parent
    recycled := u.recycled.getD h.recycled
    modified := u.modified.getD h.modified }

def toJson (h : Header) : Json :=
  .obj <| [("id", .int h.id.number.toInt), ("parent", .int h.parent.number.toInt),
      ("created", Json.ofTimestamp h.created), ("modified", Json.ofTimestamp h.modified)]
    ++ Json.recycledField h.recycled

def ofJson? (j : Json) : Option Header := do
  let fields ← Json.structFields? ["id", "parent", "created", "modified", "recycled"] j
  return {
    id := ← Json.objectId? (← Json.required? fields "id")
    parent := ← Json.objectId? (← Json.required? fields "parent")
    created := ← Json.timestamp? (← Json.required? fields "created")
    modified := ← Json.timestamp? (← Json.required? fields "modified")
    recycled := ← Json.optional? fields "recycled" false Json.bool? }

end Header

structure DurableStore where
  connected : Bool := false
  objects : Table := []
  properties : Table := []
  methods : Table := []
  /-- The stored bytes of the next id; none before the first object. -/
  sequence : Option (List UInt8) := none

namespace DurableStore

/-! ## Keys and texts -/

/-- The key of a property or method. -/
def entryKey (id : ObjectId) (name : String) : List UInt8 :=
  id.bytes ++ name.toUTF8.data.toList

/-- The name in the key of a property or method. -/
def entryName? (key : List UInt8) : Option String :=
  String.fromUTF8? ⟨(key.drop 8).toArray⟩

/-- A number as eight bytes, the least significant first. -/
def sequenceBytes (n : Int64) : List UInt8 :=
  (ObjectId.mk n).bytes.reverse

/-- The next id that stored bytes stand for. -/
def sequenceValue : Option (List UInt8) → Except StoreError Int64
  | none => .ok 0
  | some bytes =>
    match ObjectId.ofBytes? bytes.reverse with
    | some id => .ok id.number
    | none => .error (.backend ("corrupt id sequence (" ++ toString bytes.length ++ " bytes)"))

/-- Read a stored text. -/
def decode {α : Type} (id : ObjectId) (read : Json → Option α) (text : String) :
    Except StoreError α :=
  match (Json.read text).bind read with
  | some a => .ok a
  | none => .error (.undecodable id "not the text of what belongs here")

/-- The entries of one object in a table, by name. -/
def owned {α : Type} (id : ObjectId) (read : Json → Option α) (table : Table) :
    Except StoreError (OrderedDict String α) := do
  let entries ← (table.filter fun e => id.bytes.isPrefixOf e.1).mapM fun e => do
    let some name := entryName? e.1 | throw (.undecodable id "a name that is no text")
    return (name, ← decode id read e.2)
  return .ofList entries

/-- Write the named paths into a table. -/
def writeEntries {α : Type} (id : ObjectId) (write : α → Json) (changes : Dict String (Option α))
    (table : Table) : Table :=
  changes.foldl
    (fun table change =>
      match change.2 with
      | some a => table.put (entryKey id change.1) (write a).write
      | none => table.remove (entryKey id change.1))
    table

/-- The changes that write every entry of a dictionary. -/
def allSet {α : Type} (d : Dict String α) : Dict String (Option α) :=
  d.map fun (name, a) => (name, some a)

/-- Remove all entries of an object from a table. -/
def removeOwned (id : ObjectId) (table : Table) : Table :=
  table.filter fun e => !id.bytes.isPrefixOf e.1

/-! ## Operations -/

/-- The store, as long as it is connected. -/
def opened : StoreOp DurableStore DurableStore := do
  let store ← get
  if store.connected then return store else throw .notConnected

def connect : StoreOp DurableStore Unit :=
  modify fun store => { store with connected := true }

def disconnect : StoreOp DurableStore Unit :=
  modify fun store => { store with connected := false }

/-- The stored header of an object. -/
def header (store : DurableStore) (id : ObjectId) : Except StoreError (Option Header) :=
  match store.objects.get? id.bytes with
  | none => .ok none
  | some text => (decode id Header.ofJson? text).map some

/-- The whole record with a header. -/
def record (store : DurableStore) (h : Header) : Except StoreError Record := do
  let properties ← owned h.id (Json.value? Json.maxDepth) store.properties
  let methods ← owned h.id (Json.method? Json.maxDepth) store.methods
  return h.withContents properties methods

/-- The record of an object. -/
def fetch (id : ObjectId) : StoreOp DurableStore (Option Record) := do
  let store ← opened
  match ← store.header id with
  | none => return none
  | some h => return some (← store.record h)

/-- Store a record under the next id. -/
def create (r : Record) : StoreOp DurableStore ObjectId := do
  let store ← opened
  let number ← sequenceValue store.sequence
  let id : ObjectId := ⟨number⟩
  set { store with
    sequence := some (sequenceBytes (number + 1))
    objects := store.objects.put id.bytes (Header.ofRecord { r with id }).toJson.write
    properties := writeEntries id Json.ofValue (allSet r.properties.entries) store.properties
    methods := writeEntries id Json.ofMethod (allSet r.methods.entries) store.methods }
  return id

/-- Write the paths of an update into a stored record. -/
def update (id : ObjectId) (u : Update) : StoreOp DurableStore Unit := do
  let store ← opened
  match ← store.header id with
  | none => throw (.objectNotFound id)
  | some h =>
    set { store with
      objects :=
        if u.touchesHeader then store.objects.put id.bytes (h.apply u).toJson.write
        else store.objects
      properties := writeEntries id Json.ofValue u.properties store.properties
      methods := writeEntries id Json.ofMethod u.methods store.methods }

/-- Remove a record.  Whether there was one. -/
def delete (id : ObjectId) : StoreOp DurableStore Bool := do
  let store ← opened
  match ← store.header id with
  | none => return false
  | some _ =>
    set { store with
      objects := store.objects.remove id.bytes
      properties := removeOwned id store.properties
      methods := removeOwned id store.methods }
    return true

/-- The records behind stored headers; recycled ones are skipped before their contents are read,
unless they are asked for. -/
def listFrom (store : DurableStore) (recycledToo : Bool) : Table → Except StoreError (List Record)
  | [] => .ok []
  | (key, text) :: rest => do
    let some id := ObjectId.ofBytes? key | throw (.backend "malformed object key")
    let h ← decode id Header.ofJson? text
    if h.recycled && !recycledToo then listFrom store recycledToo rest
    else return (← store.record h) :: (← listFrom store recycledToo rest)

/-- The stored records in the order of their keys. -/
def list (recycledToo : Bool) : StoreOp DurableStore (List Record) := do
  let store ← opened
  store.listFrom recycledToo store.objects

/-- The store, opened again after the stored next id has been overwritten. -/
def damageSequence (bytes : List UInt8) (store : DurableStore) : DurableStore :=
  { store with sequence := some bytes, connected := true }

end DurableStore

end Lineage

namespace Lineage.DurableStore

def bytesJson (bytes : List UInt8) : Json :=
  .arr (bytes.map fun b => .int b.toNat)

def bytes? : Json → Option (List UInt8)
  | .arr items => items.mapM fun j => (Json.natBelow? 256 j).map UInt8.ofNat
  | _ => none

def tableJson (table : Table) : Json :=
  .arr (table.map fun e => .arr [bytesJson e.1, .str e.2])

def table? : Json → Option Table
  | .arr entries => do
    let entries ← entries.mapM fun
      | .arr [key, .str text] => (bytes? key).map fun key => (key, text)
      | _ => none
    return .ofList entries
  | _ => none

/-- The text of a store. -/
def image (store : DurableStore) : String :=
  Json.write <| .obj
    [("objects", tableJson store.objects), ("properties", tableJson store.properties),
     ("methods", tableJson store.methods),
     ("sequence", match store.sequence with
       | some bytes => bytesJson bytes
       | none => .null)]

/-- The store with this text, not connected. -/
def ofImage? (text : String) : Option DurableStore := do
  let .obj fields ← Json.read text | none
  let part (name : String) := Json.field? fields name
  let sequence ← match ← part "sequence" with
    | .null => some none
    | j => (bytes? j).map some
  return {
    objects := ← table? (← part "objects")
    properties := ← table? (← part "properties")
    methods := ← table? (← part "methods")
    sequence }

end Lineage.DurableStore
