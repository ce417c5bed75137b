/-
  Lineage.Script.Tree

  The syntax trees of scripts, and why a script has none or cannot be compiled.
-/
import Lineage.Script.Names
import Lineage.Value.Basic

namespace Lineage.Script

/-- Operators that evaluate both sides. -/
inductive BinaryOp where
  | add
  | sub
  | mul
  | div
  | mod
  | exp
  | eq
  | ne
  | lt
  | le
  | gt
  | ge
  /-- Where the left side is in the right one. -/
  | mem
  deriving DecidableEq

inductive UnaryOp where
  | neg
  | not
  deriving DecidableEq

mutual

inductive Expr where
  | assign (target value : Expr)
  | value (v : Value)
  | var (name : Name)
  | binary (op : BinaryOp) (left right : Expr)
  /-- `&&`, which evaluates the right side only if the left one holds. -/
  | and (left right : Expr)
  /-- `||`, which evaluates the right side only if the left one does not hold. -/
  | or (left right : Expr)
  | unary (op : UnaryOp) (operand : Expr)
  | prop (object property : Expr)
  /-- A call of a built-in function. -/
  | call (function : String) (args : List Arg)
  /-- A call of a method. -/
  | verb (object name : Expr) (args : List Arg)
  | range (base first last : Expr)
  | cond (condition consequence alternative : Expr)
  | index (base index : Expr)
  | list (items : List Arg)
  | map (entries : List (Expr × Expr))
  | scatter (targets : List Target) (source : Expr)

/-- An element of a list or of the arguments of a call. -/
inductive Arg where
  | item (e : Expr)
  /-- All elements of a list. -/
  | splice (e : Expr)

/-- A variable that a scatter assignment may set. -/
inductive Target where
  | required (name : Name)
  | optional (name : Name) (default : Option Expr)
  /-- Takes what the other targets leave. -/
  | rest (name : Name)

end

/-- Which errors an `except` clause takes. -/
inductive Codes where
  | any
  | listed (codes : List Arg)

mutual

/-- A statement and where it starts. -/
inductive Stmt where
  | mk (line column : Nat) (node : StmtNode)

inductive StmtNode where
  | branch (arms : List (Expr × List Stmt)) (otherwise : Option (List Stmt))
  | forList (name : Name) (source : Expr) (body : List Stmt)
  | forRange (name : Name) (first last : Expr) (body : List Stmt)
  | while (condition : Expr) (body : List Stmt)
  | try (body : List Stmt) (handlers : List Handler)
  | break
  | continue
  | return (value : Option Expr)
  | expr (e : Expr)

/-- An `except` clause. -/
inductive Handler where
  | mk (name : Option Name) (codes : Codes) (body : List Stmt)

end

instance : Inhabited Expr := ⟨.value .null⟩

/-- A script as read, and its variables. -/
structure SyntaxTree where
  statements : List Stmt
  names : Names

inductive CompileError where
  /-- A literal that denotes no value. -/
  | badLiteral (why : String)
  /-- Text outside the grammar.  `context` is the line it is on. -/
  | badSyntax (line column : Nat) (context expectation : String)
  | unknownBuiltin (name : String)
  /-- `break` or `continue` with no loop around it. -/
  | exitOutsideLoop (word : String)
  | duplicateVariable (name : String)
  | invalidAssignment
  | disabledFeature (what : String)
  deriving DecidableEq

/-- The text of the error. -/
def CompileError.message : CompileError → String
  | .badLiteral why => "Failure to parse string: " ++ why
  | .badSyntax line column _ expectation =>
    "Failure to parse program @ " ++ toString line ++ "/" ++ toString column ++ ": " ++ expectation
  | .unknownBuiltin name => "Unknown built-in function: " ++ name
  | .exitOutsideLoop word => "`" ++ word ++ "` used outside of a loop"
  | .duplicateVariable name => "Duplicate variable in scope: " ++ name
  | .invalidAssignment => "Invalid l-value for assignment"
  | .disabledFeature what => "Disabled feature: " ++ what

end Lineage.Script
