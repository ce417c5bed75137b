/-
  Lineage.Builtin.Call

  Calling a function: the checks on its arguments, and what it does in the world.
-/
import Lineage.Builtin.Values
import Lineage.World.Methods

namespace Lineage

/-- Something done in the world on behalf of a script. -/
abbrev ScriptAction (α : Type) := ExceptT ScriptError (StateM World) α

/-- An operation of the runtime under a script, whose failure the script sees as an error. -/
def Action.forScript {α : Type} (a : Action α) : ScriptAction α := do
  match ← a.run with
  | .ok v => return v
  | .error e => throw e.toScriptError

namespace ScriptAction

open World

/-- The object that an argument names. -/
def idOf (v : Value) : ScriptAction ObjectId :=
  match v.obj? with
  | some id => return id
  | none => throw ErrorCode.typeMismatch.error

/-- The live object that an argument names. -/
def objectOf (v : Value) : ScriptAction Handle := do
  let id ← idOf v
  match ← (load id).forScript with
  | some h => return h
  | none => throw (.withMessage .badReference (id.literal ++ " does not exist"))

/-- A new object; its parent has to exist. -/
def createObject (parent : ObjectId) (properties : OrderedDict String Value) :
    ScriptAction Value := do
  if parent ≠ .nothing then
    if (← (load parent).forScript).isNone then
      throw (.withMessage .badReference ("parent " ++ parent.literal ++ " does not exist"))
  let h ← (create parent properties {}).forScript
  return .obj (← recordOf h).id

/-- Set the source of a method, which has to compile. -/
def replaceMethod (h : Handle) (name source : String) : ScriptAction Unit := do
  match Program.compile source (← get).session.runtime.customErrors with
  | .error e => throw (.withMessage .badArgument e.message)
  | .ok _ =>
    let m : MethodDef := match (← recordOf h).methods.get? name with
      | some old => { old with source }
      | none => { source }
    setMethod h name m
    saveLater h

/-- A number from 1 to `limit`. -/
def draw (limit : Int64) : StateM World Value := fun w =>
  let seed := (w.seed * 6364136223846793005 + 1442695040888963407) % UInt64.size
  let n := seed / 2 % limit.toNatClampNeg + 1
  (.int (Int64.ofNat n), { w with seed })

def random : List Value → ScriptAction Value
  | [] => draw Int64.maxValue
  | .int limit :: _ => if limit < 1 then throw ErrorCode.badArgument.error else draw limit
  | _ => throw ErrorCode.typeMismatch.error

/-- What a function does in the world. -/
def builtin : Builtin → List Value → ScriptAction Value
  | .create, [] => createObject .nothing {}
  | .create, [parent] => do createObject (← idOf parent) {}
  | .create, parent :: properties :: _ => do
    createObject (← idOf parent) (.ofList (properties.map?.getD []))
  | .recycle, v :: _ => do
    let h ← objectOf v
    (recycle (← recordOf h).id).forScript
    return .null
  | .valid, v :: _ => do
    return .bool (← (load (← idOf v)).forScript).isSome
  | .parent, v :: _ => do
    return .obj (← recordOf (← objectOf v)).parent
  | .chparent, v :: parent :: _ => do
    let h ← objectOf v
    (setParent h (← idOf parent)).forScript
    return .null
  | .alias, .str name :: _ => do
    match ← (alias? name).forScript with
    | some id => return .obj id
    | none => throw (.withMessage .noProperty ("no alias $" ++ name))
  | .setAlias, .str name :: target :: _ => do
    (setAlias name (← idOf target)).forScript
    return .null
  | .properties, v :: _ => do
    return Builtin.texts (← recordOf (← objectOf v)).properties.keys
  | .methods, v :: _ => do
    return Builtin.texts (← recordOf (← objectOf v)).methods.keys
  | .hasProperty, v :: .str name :: _ => do
    return .bool (← (hasProperty (← objectOf v) name).forScript)
  | .hasMethod, v :: .str name :: _ => do
    return .bool (← (hasMethod (← objectOf v) name).forScript)
  | .setMethod, v :: .str name :: .str source :: _ => do
    replaceMethod (← objectOf v) name source
    return .null
  | .removeMethod, v :: .str name :: _ => do
    let h ← objectOf v
    let removed ← removeMethod h name
    saveLater h
    return .bool removed
  | .findByProperty, .str name :: rest => do
    let found ← (findByProperty name rest.head?).forScript
    let world ← get
    return .list (found.map fun h => .obj (world.session.copyOf h).record.id)
  | .save, v :: _ => do
    return .bool (← (save (← objectOf v)).forScript)
  | .time, _ => do
    return .int (Int64.ofInt (← get).clock.seconds)
  | .random, args => random args
  | _, _ => throw ErrorCode.typeMismatch.error

end ScriptAction

namespace Builtin

/-- What is wrong with arguments, the first of them standing at `position`. -/
def checkKinds (f : Builtin) (position : Nat) : List ArgKind → List Value → Except ScriptError Unit
  | kind :: kinds, v :: args =>
    if kind.accepts v then checkKinds f (position + 1) kinds args
    else .error (.withMessage .typeMismatch (f.name ++ "() argument " ++ toString position
      ++ " has the wrong type (" ++ v.tag.name ++ ")"))
  | _, _ => .ok ()

/-- Refuse arguments that the function does not take. -/
def check (f : Builtin) (args : List Value) : Except ScriptError Unit :=
  if f.signature.admits args.length then checkKinds f 1 f.signature.kinds args
  else .error (.withMessage .arity
    (f.name ++ "() does not take " ++ toString args.length ++ " arguments"))

/-- Call a function. -/
def call (f : Builtin) (args : List Value) : ScriptAction Value := do
  ExceptT.mk (pure (f.check args))
  match f.compute? args with
  | some result => ExceptT.mk (pure result)
  | none => ScriptAction.builtin f args

end Builtin

end Lineage
