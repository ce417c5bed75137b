/-
  Lineage.World.Methods

  Compiled methods, which are kept by owner and name until the method changes or its
  owner leaves memory.
-/
import Lineage.Program.Compile
import Lineage.World.View

namespace Lineage.World

/-- What a method has been compiled to, if that is kept. -/
def keptProgram (s : Session) (definer : ObjectId) (name : String) : Option Program :=
  (s.compiled.get? definer).bind fun programs => Dict.get? programs name

/-- Keep what a method was compiled to. -/
def keepProgram (definer : ObjectId) (name : String) (p : Program) : StateM World Unit :=
  onSession fun s =>
    let programs := (s.compiled.get? definer).getD []
    { s with
      compiled := s.compiled.put definer (programs.put name p)
      compilations := s.compilations + 1 }

/-- The program of the method that an object owns, compiled when it is first asked for. -/
def compiledMethod (definer : ObjectId) (name : String) : Action Program := do
  match keptProgram (← get).session definer name with
  | some p => return p
  | none =>
    let some h ← loadWith true definer | throw (.methodNotFound definer name)
    let some m := (← recordOf h).methods.get? name | throw (.methodNotFound definer name)
    match Program.compile m.source (← get).session.runtime.customErrors with
    | .error e => throw (.methodFailed definer name (.compile e))
    | .ok p =>
      keepProgram definer name p
      return p

end Lineage.World
