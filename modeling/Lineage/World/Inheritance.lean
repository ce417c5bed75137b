/-
  Lineage.World.Inheritance

  Looking things up along the chain of parents.

  The chain of an object is the object, its parent, that one's parent and so on.  It
  ends at an object without a parent, at a parent that cannot be loaded, and where it
  would come to an id for the second time.  Ancestors are loaded as they are met,
  recycled ones too.
-/
import Lineage.World.Residents

namespace Lineage.World

/-- More steps than any chain has: each step but the first comes to an id that is stored or
resident. -/
def reach (w : World) : Nat :=
  w.store.size + w.session.resident.length + 2

/-- Follow a chain, past the `visited` ids, to the first record in which `probe` finds
something. -/
def climb {α : Type} (probe : Record → Option α) :
    Nat → List ObjectId → Handle → Action (Option α)
  | 0, _, _ => return none
  | fuel + 1, visited, h => do
    let record ← recordOf h
    if visited.contains record.id then return none
    match probe record with
    | some found => return some found
    | none =>
      if record.parent = .nothing then return none
      match ← loadWith true record.parent with
      | some ancestor => climb probe fuel (record.id :: visited) ancestor
      | none => return none

/-- What `probe` finds first along the chain of an object. -/
def resolve {α : Type} (h : Handle) (probe : Record → Option α) : Action (Option α) := do
  climb probe (reach (← get)) [] h

/-- The value of a property: the object's own, or that of the nearest ancestor that owns it. -/
def property? (h : Handle) (name : String) : Action (Option Value) :=
  resolve h fun record => record.properties.get? name

def hasProperty (h : Handle) (name : String) : Action Bool := do
  return (← property? h name).isSome

/-- The nearest method of this name, and its owner. -/
def findMethod (h : Handle) (name : String) : Action (Option (ObjectId × MethodDef)) :=
  resolve h fun record => (record.methods.get? name).map (record.id, ·)

def hasMethod (h : Handle) (name : String) : Action Bool := do
  return (← findMethod h name).isSome

/-- Whether a word invokes a method as a command. -/
def answersTo (word name : String) (m : MethodDef) : Bool :=
  m.callable && (name == word || m.aliases.contains word)

/-- The nearest object that owns a method to be invoked by a word, and the name of the first such
method on it. -/
def findCommand (h : Handle) (word : String) : Action (Option (ObjectId × String)) :=
  resolve h fun record =>
    (record.methods.entries.find? fun e => answersTo word e.1 e.2).map fun e => (record.id, e.1)

/-- Follow a chain through resident copies alone, past the `visited` ids. -/
def climbCached (s : Session) (name : String) : Nat → List ObjectId → Handle → Bool
  | 0, _, _ => false
  | fuel + 1, visited, h =>
    let record := (s.copyOf h).record
    if visited.contains record.id then false
    else if record.methods.has name then true
    else
      match s.resident.get? record.parent with
      | some ancestor => climbCached s name fuel (record.id :: visited) ancestor
      | none => false

/-- Whether a method is found through resident copies alone. -/
def hasMethodCached (h : Handle) (name : String) : StateM World Bool := do
  let s := (← get).session
  return climbCached s name (s.resident.length + 2) [] h

end Lineage.World
