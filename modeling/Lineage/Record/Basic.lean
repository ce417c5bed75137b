/-
  Lineage.Record.Basic

  What is stored of an object, and partial writes to it.

  A record holds only what the object itself owns; nothing inherited is in it.  An
  update names the paths it touches: a property or method maps to its new content, or
  to nothing when it is removed.
-/
import Lineage.Value.Basic
import Lineage.Timestamp

namespace Lineage

/-- A method as its owner holds it. -/
structure MethodDef where
  source : String
  /-- Whether players may invoke the method as a command. -/
  callable : Bool := false
  /-- Further words that invoke it as a command. -/
  aliases : List String := []
  help : Option String := none
  deriving DecidableEq

/-- The stored form of one object. -/
structure Record where
  id : ObjectId
  parent : ObjectId
  properties : OrderedDict String Value := {}
  methods : OrderedDict String MethodDef := {}
  created : Timestamp
  modified : Timestamp
  recycled : Bool := false

namespace Record

/-- A record without properties and methods. -/
def bare (id parent : ObjectId) (now : Timestamp) : Record :=
  ⟨id, parent, {}, {}, now, now, false⟩

def hasParent (r : Record) : Bool :=
  r.parent != .nothing

end Record

/-- A partial write to a record. -/
structure Update where
  parent : Option ObjectId := none
  recycled : Option Bool := none
  modified : Option Timestamp := none
  properties : Dict String (Option Value) := []
  methods : Dict String (Option MethodDef) := []

namespace Update

/-- Write the named paths into a dictionary. -/
def patch {α : Type} (changes : Dict String (Option α)) (d : OrderedDict String α) :
    OrderedDict String α :=
  changes.foldl
    (fun d change =>
      match change.2 with
      | some v => d.put change.1 v
      | none => d.remove change.1)
    d

/-- Write an update into a whole record. -/
def applyTo (u : Update) (r : Record) : Record :=
  { r with
    parent := u.parent.getD r.parent
    recycled := u.recycled.getD r.recycled
    modified := u.modified.getD r.modified
    properties := patch u.properties r.properties
    methods := patch u.methods r.methods }

/-- Whether nothing but, possibly, the modification time would be written. -/
def isEmpty (u : Update) : Bool :=
  u.parent.isNone && u.recycled.isNone && u.properties.isEmpty && u.methods.isEmpty

/-- Whether parent, recycled flag or modification time are written. -/
def touchesHeader (u : Update) : Bool :=
  u.parent.isSome || u.recycled.isSome || u.modified.isSome

/-- An update without paths writes nothing. -/
theorem applyTo_empty (r : Record) : applyTo {} r = r := rfl

end Update

end Lineage
