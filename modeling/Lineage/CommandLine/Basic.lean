/-
  Lineage.CommandLine.Basic

  What may stand on the command line of a program with commands.

  The program and each of its commands has a form: the options it takes, which begin
  with two dashes, and the operands it takes, which are told apart by their place.
  Help and the reading of words both follow from the form.
-/
import Lineage.ObjectId

namespace Lineage.CommandLine

/-- How the words for an option or operand are read. -/
inductive ValueForm where
  | text
  /-- Any text but the empty one. -/
  | path
  /-- An object number, which may have `#` before it. -/
  | object
  deriving DecidableEq

/-- What a word was read as. -/
inductive Entry where
  | text (s : String)
  | object (id : ObjectId)
  deriving DecidableEq

/-- Read a word. -/
def ValueForm.read (form : ValueForm) (word : String) : Option Entry :=
  match form with
  | .text => some (.text word)
  | .path => if word = "" then none else some (.text word)
  | .object =>
    let digits := match word.toList with
      | '#' :: rest => rest
      | rest => rest
    (Numeral.read digits).toOption.map fun n => .object ⟨n⟩

/-- The word after an option. -/
structure OptionValue where
  /-- What help calls it. -/
  placeholder : String
  form : ValueForm
  /-- What the option is taken to say when it is not given. -/
  default : Option String := none

structure OptionForm where
  /-- The name without its dashes. -/
  name : String
  help : String := ""
  /-- The word that has to follow; an option without one is a flag. -/
  value : Option OptionValue := none
  /-- Whether it may be given more than once. -/
  many : Bool := false

structure OperandForm where
  name : String
  form : ValueForm
  /-- Whether it takes all words that are left, of which there may be none. -/
  many : Bool := false

/-- What a program or command takes. -/
structure CommandForm where
  name : String
  about : String
  options : List OptionForm := []
  operands : List OperandForm := []

/-- A program: what it takes before its commands, and the commands. -/
structure ProgramForm where
  program : CommandForm
  commands : List CommandForm

def CommandForm.option? (form : CommandForm) (name : String) : Option OptionForm :=
  form.options.find? fun o => o.name == name

def ProgramForm.command? (form : ProgramForm) (name : String) : Option CommandForm :=
  form.commands.find? fun c => c.name == name

/-- Why a command line was not understood. -/
inductive Misuse where
  | unknownOption (word : String)
  /-- A word given with `=` to an option that takes none. -/
  | unneededValue (option : String)
  | missingValue (option : String)
  | repeatedOption (option : String)
  | badValue (name word : String)
  | extraOperand (word : String)
  | missingOperand (name : String)
  | missingCommand
  | unknownCommand (word : String)
  deriving DecidableEq

/-- The text of the error. -/
def Misuse.message : Misuse → String
  | .unknownOption word => "unexpected argument '" ++ word ++ "' found"
  | .unneededValue option => "unexpected value for '--" ++ option ++ "' found; no more were expected"
  | .missingValue option => "a value is required for '--" ++ option ++ "' but none was supplied"
  | .repeatedOption option => "the argument '--" ++ option ++ "' cannot be used multiple times"
  | .badValue name word => "invalid value '" ++ word ++ "' for '" ++ name ++ "'"
  | .extraOperand word => "unexpected argument '" ++ word ++ "' found"
  | .missingOperand name => "the required argument '<" ++ name ++ ">' was not provided"
  | .missingCommand => "a command is required but one was not provided"
  | .unknownCommand word => "unrecognized command '" ++ word ++ "'"

/-- Why a command line leads to no command. -/
inductive Stop where
  /-- Help was asked for; this is its text. -/
  | help (text : String)
  | misuse (why : Misuse)

end Lineage.CommandLine
