/-
  Lineage.Builtin.Table

  The functions that every script may call: their names, and how many arguments of
  which kinds they take.

  A compiled program refers to a function by its place in `all`, so the order is part
  of what a listing shows.
-/
import Lineage.Text.Case
import Lineage.Value.Basic

namespace Lineage

/-- A function that every script may call. -/
inductive Builtin where
  | create
  | recycle
  | valid
  | parent
  | chparent
  | alias
  | setAlias
  | properties
  | methods
  | hasProperty
  | hasMethod
  | setMethod
  | removeMethod
  | findByProperty
  | save
  | raise
  | typeof
  | tostr
  | toint
  | tofloat
  | length
  | keys
  | isMember
  | listAppend
  | listDelete
  | time
  | random
  | min
  | max
  | abs
  deriving DecidableEq

/-- What a function accepts in one place. -/
inductive ArgKind where
  | any
  /-- An object reference, or an integer in its place. -/
  | reference
  | tagged (tag : TypeTag)
  deriving DecidableEq

namespace ArgKind

def accepts : ArgKind → Value → Bool
  | .any, _ => true
  | .reference, v => v.obj?.isSome
  | .tagged tag, v => v.tag == tag

/-- The kind as text. -/
def name : ArgKind → String
  | .any => "any"
  | .reference => "objref-or-int"
  | .tagged tag => tag.name

end ArgKind

/-- How many arguments a function takes, where nothing means no bound, and what the leading
ones have to be. -/
structure Signature where
  least : Option Nat
  most : Option Nat
  kinds : List ArgKind := []

namespace Signature

/-- As many arguments as there are kinds. -/
def exactly (kinds : List ArgKind) : Signature :=
  ⟨some kinds.length, some kinds.length, kinds⟩

def between (least most : Nat) (kinds : List ArgKind) : Signature :=
  ⟨some least, some most, kinds⟩

/-- Whether the bounds admit a number of arguments. -/
def admits (s : Signature) (count : Nat) : Bool :=
  s.least.all (· ≤ count) && s.most.all (count ≤ ·)

end Signature

namespace Builtin

/-- All functions, in their order. -/
def all : List Builtin :=
  [.create, .recycle, .valid, .parent, .chparent, .alias, .setAlias, .properties, .methods,
   .hasProperty, .hasMethod, .setMethod, .removeMethod, .findByProperty, .save, .raise, .typeof,
   .tostr, .toint, .tofloat, .length, .keys, .isMember, .listAppend, .listDelete, .time, .random,
   .min, .max, .abs]

def name : Builtin → String
  | .create => "create"
  | .recycle => "recycle"
  | .valid => "valid"
  | .parent => "parent"
  | .chparent => "chparent"
  | .alias => "alias"
  | .setAlias => "set_alias"
  | .properties => "properties"
  | .methods => "methods"
  | .hasProperty => "has_property"
  | .hasMethod => "has_method"
  | .setMethod => "set_method"
  | .removeMethod => "remove_method"
  | .findByProperty => "find_by_property"
  | .save => "save"
  | .raise => "raise"
  | .typeof => "typeof"
  | .tostr => "tostr"
  | .toint => "toint"
  | .tofloat => "tofloat"
  | .length => "length"
  | .keys => "keys"
  | .isMember => "is_member"
  | .listAppend => "listappend"
  | .listDelete => "listdelete"
  | .time => "time"
  | .random => "random"
  | .min => "min"
  | .max => "max"
  | .abs => "abs"

/-- The place of a function in the order. -/
def index (f : Builtin) : Nat :=
  all.idxOf f

/-- The function with this name, in any case. -/
def find? (text : String) : Option Builtin :=
  let folded := Text.lower text.toList
  all.find? fun f => f.name.toList = folded

def signature : Builtin → Signature
  | .create => .between 0 2 [.reference, .tagged .object]
  | .recycle | .valid | .parent | .properties | .methods | .save => .exactly [.reference]
  | .chparent => .exactly [.reference, .reference]
  | .alias => .exactly [.tagged .string]
  | .setAlias => .exactly [.tagged .string, .reference]
  | .hasProperty | .hasMethod | .removeMethod => .exactly [.reference, .tagged .string]
  | .setMethod => .exactly [.reference, .tagged .string, .tagged .string]
  | .findByProperty => .between 1 2 [.tagged .string, .any]
  | .raise => .between 1 2 [.any, .tagged .string]
  | .typeof | .toint | .tofloat | .length => .exactly [.any]
  | .tostr => ⟨some 0, none, []⟩
  | .keys => .exactly [.tagged .object]
  | .isMember => .exactly [.any, .tagged .array]
  | .listAppend => .exactly [.tagged .array, .any]
  | .listDelete => .exactly [.tagged .array, .tagged .number]
  | .time => .exactly []
  | .random => .between 0 1 [.tagged .number]
  | .min | .max => ⟨some 1, none, []⟩
  | .abs => .exactly [.tagged .number]

/-- Every function is in the list. -/
theorem mem_all (f : Builtin) : f ∈ all := by
  cases f <;> decide

/-- The place of a function is the place where the list holds it. -/
theorem all_index (f : Builtin) : all[f.index]? = some f := by
  cases f <;> decide

end Builtin

end Lineage
