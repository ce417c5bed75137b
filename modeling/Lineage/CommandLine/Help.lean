/-
  Lineage.CommandLine.Help

  The help text of a program and of its commands.
-/
import Lineage.CommandLine.Basic

namespace Lineage.CommandLine

/-! ## Layout -/

/-- Rows of two columns; the second starts two blanks after the longest entry of the first. -/
def rows (entries : List (String × String)) : List String :=
  let width := (entries.map fun e => e.1.length).foldl max 0
  entries.map fun (left, right) =>
    "  " ++ left ++ String.ofList (List.replicate (width + 2 - left.length) ' ') ++ right

/-- A section with a heading; nothing when it has no rows. -/
def heading (title : String) (entries : List (String × String)) : List (List String) :=
  if entries.isEmpty then [] else [(title ++ ":") :: rows entries]

/-- Sections with an empty line between them.  The text as a whole does not end in blanks. -/
def page (sections : List (List String)) : String :=
  let text := "\n\n".intercalate (sections.map fun lines => "\n".intercalate lines)
  String.ofList (Text.trimStart text.toList.reverse).reverse ++ "\n"

/-! ## Forms -/

/-- An operand in a usage line. -/
def OperandForm.usage (o : OperandForm) : String :=
  if o.many then "[" ++ o.name ++ "]..." else "<" ++ o.name ++ ">"

/-- The row of an option, whose long name leaves room for a short one. -/
def OptionForm.row (o : OptionForm) : String × String :=
  let long := "    --" ++ o.name
  match o.value with
  | none => (long, o.help)
  | some v =>
    let default := match v.default with
      | some d => ["[default: " ++ d ++ "]"]
      | none => []
    (long ++ " <" ++ v.placeholder ++ ">",
      " ".intercalate ((if o.help = "" then [] else [o.help]) ++ default))

def helpOptionRow : String × String :=
  ("-h, --help", "Print help")

/-- The help of a command of a program. -/
def CommandForm.help (program : String) (c : CommandForm) : String :=
  let usage := [program, c.name] ++ (if c.options.isEmpty then [] else ["[OPTIONS]"])
    ++ c.operands.map OperandForm.usage
  page <| [[c.about], ["Usage: " ++ " ".intercalate usage]]
    ++ heading "Arguments" (c.operands.map fun o => (o.usage, ""))
    ++ heading "Options" (c.options.map OptionForm.row ++ [helpOptionRow])

def helpCommandName : String := "help"

def helpCommandAbout : String :=
  "Print this message or the help of the given subcommand(s)"

/-- The help of a program. -/
def ProgramForm.help (p : ProgramForm) : String :=
  page <| [[p.program.about], ["Usage: " ++ p.program.name ++ " [OPTIONS] <COMMAND>"]]
    ++ heading "Commands"
      (p.commands.map (fun c => (c.name, c.about)) ++ [(helpCommandName, helpCommandAbout)])
    ++ heading "Options" (p.program.options.map OptionForm.row ++ [helpOptionRow])

/-- The help of the command that prints help. -/
def ProgramForm.helpOfHelp (p : ProgramForm) : String :=
  page <| [[helpCommandAbout],
      ["Usage: " ++ " ".intercalate [p.program.name, helpCommandName, "[COMMAND]..."]]]
    ++ heading "Arguments" [("[COMMAND]...", "Print help for the subcommand(s)")]

end Lineage.CommandLine
