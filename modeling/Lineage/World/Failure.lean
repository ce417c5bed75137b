/-
  Lineage.World.Failure

  How an operation of the runtime fails, and what is said of it: in full, to a player,
  and to a script under which it failed.
-/
import Lineage.Script.Tree
import Lineage.Store.Memory
import Lineage.Text.Quoted

namespace Lineage

/-- A call that an uncaught error has left. -/
structure TraceFrame where
  /-- The object that the method was called on. -/
  this : ObjectId
  /-- The object that owns the method. -/
  definer : ObjectId
  method : String
  line : Nat
  deriving DecidableEq

/-- A line of a backtrace. -/
def TraceFrame.text (f : TraceFrame) : String :=
  f.this.literal ++ ":" ++ f.method
    ++ (if f.definer = f.this then "" else " (defined on " ++ f.definer.literal ++ ")")
    ++ ", line " ++ toString f.line

/-- An error that no handler took. -/
structure Exception where
  error : ScriptError
  /-- The calls that it left, innermost first. -/
  trace : List TraceFrame

/-- Why a method did not return. -/
inductive MethodFailure where
  | compile (e : Script.CompileError)
  | exception (e : Exception)

def MethodFailure.message : MethodFailure → String
  | .compile e => "compile error: " ++ e.message
  | .exception e => e.error.describe

inductive RuntimeError where
  | notFound (id : ObjectId)
  | methodNotFound (id : ObjectId) (method : String)
  | methodFailed (id : ObjectId) (method : String) (cause : MethodFailure)
  | persistence (e : StoreError)
  /-- A name that a view answers itself was assigned. -/
  | reservedKey (key : String)
  | recursiveParent (id parent : ObjectId)

namespace RuntimeError

/-- The text of the error. -/
def message : RuntimeError → String
  | .notFound id => "Object " ++ id.literal ++ " not found"
  | .methodNotFound id method => "Method " ++ Text.debug method ++ " not found on " ++ id.literal
  | .methodFailed id method cause =>
    "Method " ++ id.literal ++ ":" ++ method ++ " failed: " ++ cause.message
  | .persistence e => "Persistence failure: " ++ e.message
  | .reservedKey key => Text.debug key ++ " is reserved and cannot be assigned"
  | .recursiveParent id parent =>
    "Making " ++ parent.literal ++ " the parent of " ++ id.literal ++ " would create a cycle"

/-- What a player is told. -/
def userMessage : RuntimeError → String
  | .notFound _ => "That object no longer exists."
  | .methodNotFound _ method => "There is no " ++ method ++ " here."
  | .methodFailed _ method (.compile _) => method ++ " could not be compiled."
  | .methodFailed _ method (.exception e) => method ++ " failed: " ++ e.error.message
  | .persistence _ => "Something went wrong saving that."
  | .reservedKey key => key ++ " cannot be changed."
  | .recursiveParent _ _ => "That would make an object its own ancestor."

/-- The error that a script sees. -/
def toScriptError : RuntimeError → ScriptError
  | .notFound id => .withMessage .badReference (id.literal ++ " does not exist")
  | .methodNotFound id method => .withMessage .noMethod (id.literal ++ ":" ++ method ++ " not found")
  | .methodFailed _ _ (.exception e) => e.error
  | e@(.methodFailed _ _ (.compile _)) => .withMessage .badArgument e.message
  | .persistence e => .withMessage .quota e.message
  | e@(.reservedKey _) => .withMessage .permission e.message
  | e@(.recursiveParent _ _) => .withMessage .recursiveMove e.message

end RuntimeError

end Lineage
