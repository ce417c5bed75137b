/-
  Lineage.Admin.Command

  The commands of the administration tool, and reading them from a command line.
-/
import Lineage.CommandLine.Reader

namespace Lineage.Admin

open CommandLine

inductive Command where
  | list (recycled : Bool)
  | print (id : ObjectId)
  | create (parent : ObjectId)
  | recycle (id : ObjectId)
  | call (id : ObjectId) (method : String) (args : List String)
  | eval (this : ObjectId) (source : String)
  | setMethod (id : ObjectId) (name source : String) (callable : Bool) (aliases : List String)
  | disassemble (id : ObjectId) (method : String)
  | setAlias (name : String) (id : ObjectId)
  deriving DecidableEq

/-- A command with what holds for all commands. -/
structure Invocation where
  /-- The file with the settings. -/
  settingsFile : Option String
  /-- The directory of the database, if it is not as the settings say. -/
  database : Option String
  debug : Bool
  command : Command

/-! ## Forms -/

def objectOperand : OperandForm := { name := "OBJECT", form := .object }
def methodOperand : OperandForm := { name := "METHOD", form := .text }
def nameOperand : OperandForm := { name := "NAME", form := .text }

def programForm : ProgramForm where
  program :=
    { name := "ember-admin"
      about := "Inspect and edit an ember database"
      options :=
        [{ name := "config-file", help := "YAML configuration file"
           value := some { placeholder := "config", form := .path } },
         { name := "db"
           help := "Database directory; overrides the configuration file. "
             ++ "Without one, an empty in-memory database is used"
           value := some { placeholder := "db", form := .path } },
         { name := "debug", help := "Enable debug logging" }] }
  commands :=
    [{ name := "list"
       about := "List objects with their parents"
       options := [{ name := "recycled", help := "Include recycled objects" }] },
     { name := "show"
       about := "Print an object's stored record as JSON"
       operands := [objectOperand] },
     { name := "create"
       about := "Create an object and print its id"
       options :=
        [{ name := "parent"
           value := some { placeholder := "PARENT", form := .object, default := some "#0" } }] },
     { name := "recycle"
       about := "Recycle an object"
       operands := [objectOperand] },
     { name := "call"
       about := "Call a method. Arguments are source expressions, evaluated on the root object"
       operands := [objectOperand, methodOperand, { name := "ARGS", form := .text, many := true }] },
     { name := "eval"
       about := "Run a snippet of method source with `this` bound to the given object"
       options :=
        [{ name := "this"
           value := some { placeholder := "THIS", form := .object, default := some "#0" } }]
       operands := [{ name := "SOURCE", form := .text }] },
     { name := "set-method"
       about := "Define or replace a method, reading its source from a file, or stdin when given `-`"
       options :=
        [{ name := "callable", help := "Allow players to invoke the method as a command" },
         { name := "alias", help := "A command alias; may be repeated", many := true
           value := some { placeholder := "ALIASES", form := .text } }]
       operands := [objectOperand, nameOperand, { name := "SOURCE", form := .path }] },
     { name := "disassemble"
       about := "Print the compiled form of a method, resolved through the object's ancestors"
       operands := [objectOperand, methodOperand] },
     { name := "set-alias"
       about := "Point a `$name` alias at an object"
       operands := [nameOperand, objectOperand] }]

/-! ## Reading -/

/-- The command of this name with its arguments. -/
def Command.ofArguments (name : String) (a : Arguments) : Except Stop Command := do
  match name with
  | "list" => return .list (a.flag "recycled")
  | "show" => return .print (← a.object "OBJECT")
  | "create" => return .create (← a.object "parent")
  | "recycle" => return .recycle (← a.object "OBJECT")
  | "call" => return .call (← a.object "OBJECT") (← a.text "METHOD") (a.texts "ARGS")
  | "eval" => return .eval (← a.object "this") (← a.text "SOURCE")
  | "set-method" =>
    return .setMethod (← a.object "OBJECT") (← a.text "NAME") (← a.text "SOURCE")
      (a.flag "callable") (a.texts "alias")
  | "disassemble" => return .disassemble (← a.object "OBJECT") (← a.text "METHOD")
  | "set-alias" => return .setAlias (← a.text "NAME") (← a.object "OBJECT")
  | other => throw (.misuse (.unknownCommand other))

/-- Read the words after the name of the tool. -/
def Invocation.read (words : List String) : Except Stop Invocation := do
  let (a, command) ← programForm.read Command.ofArguments words
  return ⟨a.text? "config-file", a.text? "db", a.flag "debug", command⟩

end Lineage.Admin
