/-
  Lineage.World.Changes

  Changing objects and writing the changes.

  A change is made in the copy that a handle names and marks its path there; saving
  writes the marked paths and no others.
-/
import Lineage.World.Inheritance

namespace Lineage.World

/-! ## Properties and methods -/

/-- Set a property of the object's own, which hides an inherited one. -/
def setProperty (h : Handle) (name : String) (v : Value) : StateM World Unit := do
  onRecord h fun r => { r with properties := r.properties.put name v }
  onDirty h fun d => { d with properties := d.properties.add name }

/-- Remove a property of the object's own.  Whether there was one. -/
def removeProperty (h : Handle) (name : String) : StateM World Bool := do
  if (← recordOf h).properties.has name then
    onRecord h fun r => { r with properties := r.properties.remove name }
    onDirty h fun d => { d with properties := d.properties.add name }
    return true
  else return false

/-- Forget what a method was compiled to. -/
def forgetCompiled (definer : ObjectId) (name : String) : StateM World Unit :=
  onSession fun s =>
    match s.compiled.get? definer with
    | some programs => { s with compiled := s.compiled.put definer (Dict.remove programs name) }
    | none => s

/-- Set a method of the object's own. -/
def setMethod (h : Handle) (name : String) (m : MethodDef) : StateM World Unit := do
  onRecord h fun r => { r with methods := r.methods.put name m }
  onDirty h fun d => { d with methods := d.methods.add name }
  forgetCompiled (← recordOf h).id name

/-- Remove a method of the object's own.  Whether there was one. -/
def removeMethod (h : Handle) (name : String) : StateM World Bool := do
  let record ← recordOf h
  if record.methods.has name then
    onRecord h fun r => { r with methods := r.methods.remove name }
    onDirty h fun d => { d with methods := d.methods.add name }
    forgetCompiled record.id name
    return true
  else return false

/-! ## Saving -/

/-- The write of the changed paths, which are no longer marked afterwards; nothing when no path
is marked. -/
def takeUpdate (h : Handle) : StateM World (Option Update) := do
  let c ← copy h
  if c.dirty.isClean then return none
  let now := (← get).clock
  onCopy h fun c => c.written now
  return some (c.update now)

/-- Write the changes.  Whether there were any.  If writing fails, they stay marked. -/
def save (h : Handle) : Action Bool := do
  let c ← copy h
  match ← takeUpdate h with
  | none => return false
  | some u =>
    match ← writeNow c.record.id u with
    | .ok _ => return true
    | .error e =>
      onDirty h fun d => d.merge c.dirty
      throw (.persistence e)

/-- Let the write of the changes wait.  Whether it succeeds is not found out. -/
def saveLater (h : Handle) : StateM World Unit := do
  match ← takeUpdate h with
  | none => return
  | some u => writeLater (← recordOf h).id u

/-- Replace a copy, its changes included, by what is stored. -/
def refresh (h : Handle) : Action Unit := do
  let id := (← recordOf h).id
  invalidate id
  match ← fetch id with
  | none => throw (.notFound id)
  | some record =>
    onCopy h fun _ => { record }
    onSession fun s => { s with resident := s.resident.put record.id h }

/-! ## Parents and recycling -/

/-- Whether following parents from an object comes to an id. -/
def reaches (h : Handle) (id : ObjectId) : Action Bool := do
  return (← resolve h fun record => if record.id = id then some () else none).isSome

/-- Give an object another parent, and write that. -/
def setParent (h : Handle) (parent : ObjectId) : Action Unit := do
  let id := (← recordOf h).id
  if parent = id then throw (.recursiveParent id parent)
  if parent ≠ .nothing then
    if let some ancestor ← loadWith true parent then
      if ← reaches ancestor id then throw (.recursiveParent id parent)
  onRecord h fun r => { r with parent }
  onDirty h fun d => { d with header := true }
  let _ ← save h

/-- Mark an object as recycled, write that, and drop it from memory. -/
def recycle (id : ObjectId) : Action Unit := do
  let h ← object id
  onRecord h fun r => { r with recycled := true }
  onDirty h fun d => { d with header := true }
  let _ ← save h
  invalidate id

/-- Apply the waiting writes, take no more, and let go of the store. -/
def shutdown : Action Unit := do
  stopWriting
  access Store.disconnect

end Lineage.World
