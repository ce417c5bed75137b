/-
  Lineage.World.View

  The root object and its table of aliases, and objects as scripts and hosts address them,
  by names that are known only at run time.

  A few names are answered by the view itself and cannot be assigned; then come
  properties, then methods.
-/
import Lineage.World.Changes

namespace Lineage.World

/-- The property of the root that maps names to objects. -/
def aliasProperty : String := "aliases"

/-- The root object, created if nothing at all is stored. -/
def ensureRoot : Action Handle := do
  match ← load .root with
  | some h => return h
  | none =>
    settle
    if !(← access (Store.list true)).isEmpty then throw (.notFound .root)
    let h ← create .nothing (.ofList [(aliasProperty, .map [])]) {}
    if (← recordOf h).id ≠ .root then throw (.notFound .root)
    return h

/-- The object that a name stands for. -/
def alias? (name : String) : Action (Option ObjectId) := do
  match ← load .root with
  | none => return none
  | some h =>
    let aliases := (← recordOf h).properties.get? aliasProperty
    return ((aliases.bind Value.map?).bind fun table => table.get? name).bind Value.obj?

/-- Let a name stand for an object. -/
def setAlias (name : String) (target : ObjectId) : Action Unit := do
  let h ← object .root
  let aliases := (← recordOf h).properties.get? aliasProperty
  let table := (aliases.bind Value.map?).getD []
  setProperty h aliasProperty (.map (table.put name (.obj target)))
  let _ ← save h

/-- Of some objects, those with a property, and with the given value in it if one is given. -/
def havingProperty (name : String) (wanted : Option Value) : List Handle → Action (List Handle)
  | [] => return []
  | h :: rest => do
    let matching := match ← property? h name, wanted with
      | some _, none => true
      | some v, some w => v.equals w
      | none, _ => false
    let more ← havingProperty name wanted rest
    return if matching then h :: more else more

/-- The live objects with a property, inherited or not, and with the given value in it if one is
given. -/
def findByProperty (name : String) (wanted : Option Value) : Action (List Handle) := do
  havingProperty name wanted (← list false)

/-- The names that a view answers itself. -/
def reservedKeys : List String := ["id", "parent", "recycled"]

/-- The value of a reserved name or of a property. -/
def viewValue (h : Handle) (key : String) : Action (Option Value) := do
  let record ← recordOf h
  match key with
  | "id" => return some (.obj record.id)
  | "parent" => return some (.obj record.parent)
  | "recycled" => return some (.bool record.recycled)
  | _ => property? h key

/-- A handle in diagnostics. -/
def describe (h : Handle) : StateM World String := do
  let c ← copy h
  return "ObjectHandle \x7b id: " ++ c.record.id.literal ++ ", parent: " ++ c.record.parent.literal
    ++ ", dirty: " ++ (if c.dirty.isClean then "false" else "true") ++ " \x7d"

/-- What a name stands for. -/
inductive ViewItem where
  | value (v : Value)
  /-- A method, which may be called on the object. -/
  | method (h : Handle) (name : String)

/-- What a name stands for: a value, or else a method. -/
def viewGet (h : Handle) (key : String) : Action (Option ViewItem) := do
  match ← viewValue h key with
  | some v => return some (.value v)
  | none => return if ← hasMethod h key then some (.method h key) else none

/-- Set a property, and let the write of it wait. -/
def viewSet (h : Handle) (key : String) (v : Value) : Action Unit := do
  if reservedKeys.contains key then throw (.reservedKey key)
  setProperty h key v
  saveLater h

end Lineage.World
