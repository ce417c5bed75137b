/-
  Lineage.ErrorCode

  The codes of script errors, and errors themselves: a code with an optional
  message.

  A code is one of fifteen built-in ones or custom.  `read` takes a name in any case;
  it gives a custom code for every other name that is `E_` followed by something.
-/
import Lineage.Text.Case

namespace Lineage

/-- What kind of error a script met; `except` clauses match on it. -/
inductive ErrorCode where
  | noError
  | typeMismatch
  | division
  | permission
  | noProperty
  | noMethod
  | noVariable
  | badReference
  | recursiveMove
  | tooDeep
  | range
  | arity
  | badArgument
  | quota
  | float
  | custom (name : String)
  deriving DecidableEq

namespace ErrorCode

/-- The built-in codes with their names and descriptions, in their order. -/
def builtins : List (ErrorCode × String × String) :=
  [(.noError, "E_NONE", "No error"),
   (.typeMismatch, "E_TYPE", "Type mismatch"),
   (.division, "E_DIV", "Division by zero"),
   (.permission, "E_PERM", "Permission denied"),
   (.noProperty, "E_PROPNF", "Property not found"),
   (.noMethod, "E_VERBNF", "Method not found"),
   (.noVariable, "E_VARNF", "Variable not found"),
   (.badReference, "E_INVIND", "Invalid indirection"),
   (.recursiveMove, "E_RECMOVE", "Recursive move"),
   (.tooDeep, "E_MAXREC", "Too many nested calls"),
   (.range, "E_RANGE", "Range error"),
   (.arity, "E_ARGS", "Incorrect number of arguments"),
   (.badArgument, "E_INVARG", "Invalid argument"),
   (.quota, "E_QUOTA", "Resource limit exceeded"),
   (.float, "E_FLOAT", "Floating-point arithmetic error")]

/-- The place of a code in the order; all custom codes share the last one. -/
def index : ErrorCode → Nat
  | .noError => 0
  | .typeMismatch => 1
  | .division => 2
  | .permission => 3
  | .noProperty => 4
  | .noMethod => 5
  | .noVariable => 6
  | .badReference => 7
  | .recursiveMove => 8
  | .tooDeep => 9
  | .range => 10
  | .arity => 11
  | .badArgument => 12
  | .quota => 13
  | .float => 14
  | .custom _ => 15

/-- The name that a custom code carries; empty for the built-in ones. -/
def customName : ErrorCode → String
  | .custom name => name
  | _ => ""

/-- Whether the code is not a built-in one. -/
def isCustom : ErrorCode → Bool
  | .custom _ => true
  | _ => false

/-- The name of a code as scripts write it. -/
def name : ErrorCode → String
  | .custom name => name
  | code => ((builtins[code.index]?).map fun e => e.2.1).getD ""

/-- What a code means, in words; a custom code is its own description. -/
def description : ErrorCode → String
  | .custom name => name
  | code => ((builtins[code.index]?).map fun e => e.2.2).getD ""

/-- Read a code from its name, in any case. -/
def read (text : String) : Option ErrorCode :=
  let upper := Text.upper text.toList
  match builtins.find? fun e => e.2.1.toList = upper with
  | some e => some e.1
  | none =>
    match upper with
    | 'E' :: '_' :: _ :: _ => some (.custom (String.ofList upper))
    | _ => none

/-- Built-in codes in their listed order, then custom codes by name. -/
instance : Ord ErrorCode := ⟨compareLex (compareOn index) (compareOn customName)⟩

instance : Std.TransOrd ErrorCode :=
  inferInstanceAs (Std.TransCmp (compareLex (compareOn index) (compareOn customName)))

/-- Index and custom name together tell codes apart. -/
theorem eq_of_index_eq {a b : ErrorCode} (hi : a.index = b.index)
    (hn : a.customName = b.customName) : a = b := by
  cases a <;> cases b <;> simp_all [index, customName]

instance : Std.LawfulEqOrd ErrorCode where
  eq_of_compare {a b} h := by
    have h' : (compare a.index b.index).then (compare a.customName b.customName) = .eq := h
    rw [Ordering.then_eq_eq] at h'
    exact eq_of_index_eq (Std.LawfulEqOrd.eq_of_compare h'.1) (Std.LawfulEqOrd.eq_of_compare h'.2)

/-- The name of every built-in code reads as that code. -/
theorem read_name_of_builtin : ∀ e ∈ builtins, read e.1.name = some e.1 := by decide +kernel

end ErrorCode

/-- An error as a script sees it. -/
structure ScriptError where
  code : ErrorCode
  message? : Option String := none
  deriving DecidableEq

namespace ScriptError

/-- An error with a message. -/
def withMessage (code : ErrorCode) (message : String) : ScriptError :=
  ⟨code, some message⟩

/-- The message, or failing that the description of the code. -/
def message (e : ScriptError) : String :=
  e.message?.getD e.code.description

/-- The code, with the message in parentheses if there is one. -/
def describe (e : ScriptError) : String :=
  match e.message? with
  | some m => e.code.name ++ " (" ++ m ++ ")"
  | none => e.code.name

end ScriptError

/-- The error with a code and no message of its own. -/
def ErrorCode.error (code : ErrorCode) : ScriptError :=
  ⟨code, none⟩

instance : Coe ErrorCode ScriptError := ⟨ErrorCode.error⟩

end Lineage
