/-
  Lineage.CommandLine.Reader

  Reading the words of a command line.

  Words are taken from the left.  What was written for an option or operand is looked
  at when the next option or operand is met, or when its command ends; so an asked-for
  help text comes before whatever is wrong to the right of it.  After `--` every word
  is an operand.
-/
import Lineage.CommandLine.Help

namespace Lineage.CommandLine

/-! ## Words -/

/-- A word as it looks. -/
inductive Word where
  /-- Two dashes alone. -/
  | terminator
  /-- Two dashes and a name, with what follows `=`. -/
  | long (name : String) (value : Option String)
  /-- One dash and letters. -/
  | short (letters : List Char)
  | plain

def Word.ofString (word : String) : Word :=
  match word.toList with
  | ['-', '-'] => .terminator
  | '-' :: '-' :: rest =>
    let value := match rest.dropWhile (· != '=') with
      | [] => none
      | _ :: value => some (String.ofList value)
    .long (String.ofList (rest.takeWhile (· != '='))) value
  | '-' :: letter :: rest => .short (letter :: rest)
  | _ => .plain

/-! ## Gathering -/

/-- Words gathered for an option or operand. -/
structure Gathered where
  name : String
  form : ValueForm
  many : Bool
  words : List String

/-- What has been read so far. -/
structure Arguments where
  /-- What was read, oldest first, under the name of its option or operand. -/
  entries : List (String × Entry) := []
  flags : List String := []
  /-- Words that have not been looked at yet. -/
  pending : Option Gathered := none
  /-- How many operands have been filled. -/
  operands : Nat := 0

namespace Arguments

def given (a : Arguments) (name : String) : Bool :=
  a.flags.contains name || a.entries.any fun e => e.1 == name

/-- Read gathered words. -/
def add (a : Arguments) (g : Gathered) : Except Stop Arguments := do
  if g.words.isEmpty then throw (.misuse (.missingValue g.name))
  if a.given g.name && !g.many then throw (.misuse (.repeatedOption g.name))
  let entries ← g.words.mapM fun word =>
    match g.form.read word with
    | some entry => pure (g.name, entry)
    | none => throw (.misuse (.badValue g.name word))
  return { a with entries := a.entries ++ entries }

/-- Read the words that have not been looked at. -/
def settle (a : Arguments) : Except Stop Arguments :=
  match a.pending with
  | none => .ok a
  | some g => ({ a with pending := none }).add g

/-- Note a flag. -/
def addFlag (a : Arguments) (o : OptionForm) : Except Stop Arguments := do
  let a ← a.settle
  if a.given o.name && !o.many then throw (.misuse (.repeatedOption o.name))
  return { a with flags := a.flags ++ [o.name] }

/-- Begin an operand with a word. -/
def fill (a : Arguments) (o : OperandForm) (word : String) : Arguments :=
  { a with
    pending := some ⟨o.name, o.form, o.many, [word]⟩
    operands := if o.many then a.operands else a.operands + 1 }

/-- Take a word as an operand. -/
def addOperand (form : CommandForm) (a : Arguments) (word : String) : Except Stop Arguments :=
  match form.operands[a.operands]? with
  | none => .error (.misuse (.extraOperand word))
  | some o =>
    match a.pending with
    | some g =>
      if g.name = o.name then .ok { a with pending := some { g with words := g.words ++ [word] } }
      else do return (← a.settle).fill o word
    | none => .ok (a.fill o word)

/-- Take an option.  Whether its value is the next word. -/
def addOption (a : Arguments) (o : OptionForm) (value : Option String) :
    Except Stop (Arguments × Bool) :=
  match o.value, value with
  | none, none => do return (← a.addFlag o, false)
  | none, some _ => .error (.misuse (.unneededValue o.name))
  | some v, none => do
    return ({ ← a.settle with pending := some ⟨o.name, v.form, o.many, []⟩ }, true)
  | some v, some word => do
    return (← (← a.settle).add ⟨o.name, v.form, o.many, [word]⟩, false)

/-- Take the value that an option waits for. -/
def addValue (a : Arguments) (word : String) : Arguments :=
  { a with pending := a.pending.map fun g => { g with words := g.words ++ [word] } }

/-- Give up for help, unless what stands before it is wrong. -/
def stopForHelp {α : Type} (a : Arguments) (help : String) : Except Stop α := do
  let _ ← a.settle
  throw (.help help)

/-- Take words until one names a command.  The arguments, and that word with the words after
it. -/
def gather (form : CommandForm) (help : String) (isCommand : String → Bool)
    (literal awaiting : Bool) (a : Arguments) :
    List String → Except Stop (Arguments × Option (String × List String))
  | [] => .ok (a, none)
  | word :: rest => do
    if literal then gather form help isCommand true false (← a.addOperand form word) rest
    else if !awaiting && isCommand word then return (a, some (word, rest))
    else
      match Word.ofString word with
      | .terminator => gather form help isCommand true false a rest
      | .plain =>
        if awaiting then gather form help isCommand false false (a.addValue word) rest
        else gather form help isCommand false false (← a.addOperand form word) rest
      | .short letters =>
        if letters.head? = some 'h' then a.stopForHelp help
        else throw (.misuse (.unknownOption word))
      | .long name value =>
        match form.option? name with
        | some o =>
          let (a, awaiting) ← a.addOption o value
          gather form help isCommand false awaiting a rest
        | none =>
          if name ≠ "help" then throw (.misuse (.unknownOption word))
          if value.isSome then throw (.misuse (.unneededValue name))
          a.stopForHelp help

/-- Add what the options that were not given are taken to say. -/
def addDefaults (form : CommandForm) (a : Arguments) : Arguments :=
  form.options.foldl
    (fun a o =>
      match o.value with
      | some ⟨_, valueForm, some default⟩ =>
        if a.given o.name then a
        else { a with entries := a.entries ++ ((valueForm.read default).map (o.name, ·)).toList }
      | _ => a)
    a

/-! ## Looking up -/

def flag (a : Arguments) (name : String) : Bool :=
  a.flags.contains name

/-- Everything given under a name. -/
def all (a : Arguments) (name : String) : List Entry :=
  a.entries.filterMap fun e => if e.1 == name then some e.2 else none

def texts (a : Arguments) (name : String) : List String :=
  (a.all name).filterMap fun
    | .text s => some s
    | .object _ => none

def text? (a : Arguments) (name : String) : Option String :=
  (a.texts name).head?

/-- A text that has to be there. -/
def text (a : Arguments) (name : String) : Except Stop String :=
  match a.text? name with
  | some s => .ok s
  | none => .error (.misuse (.missingOperand name))

/-- An object that has to be there. -/
def object (a : Arguments) (name : String) : Except Stop ObjectId :=
  match a.all name with
  | .object id :: _ => .ok id
  | _ => .error (.misuse (.missingOperand name))

end Arguments

/-! ## Programs -/

/-- The help that the words after the help command ask for. -/
def ProgramForm.helpOn (p : ProgramForm) : List String → Stop
  | [] => .help p.help
  | word :: rest =>
    let found := if word = helpCommandName then some p.helpOfHelp
      else (p.command? word).map fun c => c.help p.program.name
    match found, rest with
    | some text, [] => .help text
    | some _, word :: _ => .misuse (.unknownCommand word)
    | none, _ => .misuse (.unknownCommand word)

/-- The arguments of the program, the command, and the arguments of the command, which `decode`
takes in.  The arguments of the program that stand last before the command are looked at when
the command has been read. -/
def ProgramForm.read {α : Type} (p : ProgramForm) (decode : String → Arguments → Except Stop α)
    (words : List String) : Except Stop (Arguments × α) := do
  let isCommand word := word == helpCommandName || (p.command? word).isSome
  let (top, next) ← Arguments.gather p.program p.help isCommand false false {} words
  match next with
  | none =>
    let _ ← top.settle
    throw (.misuse .missingCommand)
  | some (name, rest) =>
    match p.command? name with
    | none => throw (p.helpOn rest)
    | some c =>
      let (a, _) ← Arguments.gather c (c.help p.program.name) (fun _ => false) false false {} rest
      let a ← a.settle
      let decoded ← decode name (a.addDefaults c)
      return ((← top.settle).addDefaults p.program, decoded)

end Lineage.CommandLine
