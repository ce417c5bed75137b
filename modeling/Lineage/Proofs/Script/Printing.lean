/-
  Lineage.Proofs.Script.Printing

  Scripts as text.

  A syntax tree is printed as a list of tokens, with parentheses only where an operand
  binds weaker than its place asks for (`Expr.tokens`, `Stmt.tokens`), and the tokens are
  laid out with gaps between them (`LaidOut`): any run of spaces, line ends and whole
  comments that starts with a space or a line end.  A variable is printed under whatever
  name its slot is given.

  `Stmt.Printable` says what a tree has to be for that: what the reader can give, but for
  floats, with variables, properties and elements as the targets of assignments.
-/
import Lineage.Proofs.Script.Atoms
import Lineage.Proofs.Script.Parts

namespace Lineage.Script

/-! ## Words -/

/-- Whether a text is an identifier. -/
def isIdentifier (s : String) : Bool :=
  (s.toList.head?.any startsIdent && s.toList.all isIdentChar) &&
    Rules.keywords.all fun kw => kw.toList != s.toList.map Char.toLower

/-- Whether a text has the shape of an error code. -/
def isCodeName (s : String) : Bool :=
  match s.toList with
  | 'E' :: '_' :: ch :: word => (ch :: word).all isCodeChar
  | _ => false

/-- Whether a variable can be printed under a name. -/
def isVariable (s : String) : Bool :=
  isIdentifier s && s.toList.map Char.toLower != ['a', 'n', 'y'] && !isCodeName s

/-! ## Expressions as tokens -/

namespace BinaryOp

/-- The token of the operator. -/
def symbol : BinaryOp → String
  | .add => "+"
  | .sub => "-"
  | .mul => "*"
  | .div => "/"
  | .mod => "%"
  | .exp => "^"
  | .eq => "=="
  | .ne => "!="
  | .lt => "<"
  | .le => "<="
  | .gt => ">"
  | .ge => ">="
  | .mem => "in"

def strength : BinaryOp → Nat
  | .add | .sub => Strength.sum
  | .mul | .div | .mod => Strength.product
  | .exp => Strength.power
  | .eq | .ne => Strength.equality
  | .lt | .le | .gt | .ge => Strength.relation
  | .mem => Strength.membership

/-- Whether the operator takes its operands from the right; all others do from the left. -/
def groupsRight (op : BinaryOp) : Bool := op == .exp

end BinaryOp

namespace UnaryOp

/-- The token of the operator. -/
def symbol : UnaryOp → String
  | .neg => "-"
  | .not => "!"

end UnaryOp

/-- How strongly an expression holds its parts together. -/
def Expr.strength : Expr → Nat
  | .assign _ _ | .scatter _ _ => Strength.assignment
  | .cond _ _ _ => Strength.conditional
  | .or _ _ => Strength.either
  | .and _ _ => Strength.both
  | .binary op _ _ => op.strength
  | .unary _ _ => Strength.sign
  | _ => Strength.access

/-- An operand, in parentheses where it is too weak for its place. -/
def enclose (weak : Bool) (ts : List String) : List String :=
  if weak then "(" :: ts ++ [")"] else ts

/-- Token lists with commas between them. -/
def commas : List (List String) → List String
  | [] => []
  | ts :: rest => ts ++ rest.flatMap ("," :: ·)

/-- The name of a property or method that can be written without parentheses. -/
def Expr.plainName? : Expr → Option String
  | .value (.str s) => if isIdentifier s then some s else none
  | _ => none

/-- The name of a property or method. -/
def nameTokens (name : Expr) (ts : List String) : List String :=
  match name.plainName? with
  | some s => [s]
  | none => "(" :: ts ++ [")"]

/-- The name that a call looks up as an alias, if it can be written with `$`. -/
def alias? : String → List Arg → Option String
  | "alias", [.item name] => name.plainName?
  | _, _ => none

/-- A call of a function. -/
def callTokens (function : String) (args : List Arg) (ts : List String) : List String :=
  match alias? function args with
  | some name => ["$" ++ name]
  | none => function :: "(" :: ts ++ [")"]

section

variable (ν : Name → String)

mutual

/-- An expression as tokens. -/
def Expr.tokens : Expr → List String
  | .assign target value => Expr.tokens target ++ "=" :: Expr.tokens value
  | .value v => [v.literal]
  | .var name => [ν name]
  | .binary op left right =>
    enclose (left.strength < op.strength + if op.groupsRight then 1 else 0) (Expr.tokens left) ++
      op.symbol ::
        enclose (right.strength < op.strength + if op.groupsRight then 0 else 1) (Expr.tokens right)
  | .and left right => enclose (left.strength < Strength.both) (Expr.tokens left) ++
      "&&" :: enclose (right.strength < Strength.both + 1) (Expr.tokens right)
  | .or left right => enclose (left.strength < Strength.either) (Expr.tokens left) ++
      "||" :: enclose (right.strength < Strength.either + 1) (Expr.tokens right)
  | .unary op operand =>
    op.symbol :: enclose (operand.strength < Strength.sign) (Expr.tokens operand)
  | .prop object property => enclose (object.strength < Strength.access) (Expr.tokens object) ++
      "." :: nameTokens property (Expr.tokens property)
  | .call function args => callTokens function args (commas (Arg.tokens args))
  | .verb object name args => enclose (object.strength < Strength.access) (Expr.tokens object) ++
      ":" :: nameTokens name (Expr.tokens name) ++ "(" :: commas (Arg.tokens args) ++ [")"]
  | .range base first last => enclose (base.strength < Strength.access) (Expr.tokens base) ++
      "[" :: Expr.tokens first ++ ".." :: Expr.tokens last ++ ["]"]
  | .cond condition consequence alternative =>
    enclose (condition.strength < Strength.conditional + 1) (Expr.tokens condition) ++
      "?" :: Expr.tokens consequence ++ "|" :: Expr.tokens alternative
  | .index base index => enclose (base.strength < Strength.access) (Expr.tokens base) ++
      "[" :: Expr.tokens index ++ ["]"]
  | .list items => "\x7b" :: commas (Arg.tokens items) ++ ["\x7d"]
  | .map entries => "[" :: commas (Expr.entryTokens entries) ++ ["]"]
  | .scatter targets source =>
    "\x7b" :: commas (Target.tokens targets) ++ "\x7d" :: "=" :: Expr.tokens source

/-- The arguments of a call, or the elements of a list. -/
def Arg.tokens : List Arg → List (List String)
  | [] => []
  | .item e :: rest => Expr.tokens e :: Arg.tokens rest
  | .splice e :: rest => ("@" :: Expr.tokens e) :: Arg.tokens rest

def Expr.entryTokens : List (Expr × Expr) → List (List String)
  | [] => []
  | (key, value) :: rest =>
    (Expr.tokens key ++ "->" :: Expr.tokens value) :: Expr.entryTokens rest

def Target.tokens : List Target → List (List String)
  | [] => []
  | .required name :: rest => [ν name] :: Target.tokens rest
  | .rest name :: rest => ["@", ν name] :: Target.tokens rest
  | .optional name none :: rest => ["?", ν name] :: Target.tokens rest
  | .optional name (some default) :: rest =>
    ("?" :: ν name :: "=" :: Expr.tokens default) :: Target.tokens rest

end

/-! ## Statements as tokens -/

/-- The codes that an `except` clause takes. -/
def Codes.tokens : Codes → List String
  | .any => ["any"]
  | .listed codes => commas (Arg.tokens ν codes)

mutual

/-- A statement as tokens. -/
def Stmt.tokens : Stmt → List String
  | .mk _ _ node => StmtNode.tokens node

def StmtNode.tokens : StmtNode → List String
  | .branch arms otherwise => Stmt.armTokens "if" arms ++
      (match otherwise with
        | some body => "else" :: Stmt.blockTokens body
        | none => []) ++ ["endif"]
  | .forList name source body =>
    "for" :: ν name :: "in" :: "(" :: source.tokens ν ++ ")" :: Stmt.blockTokens body ++ ["endfor"]
  | .forRange name first last body =>
    "for" :: ν name :: "in" :: "[" :: first.tokens ν ++ ".." :: last.tokens ν ++
      "]" :: Stmt.blockTokens body ++ ["endfor"]
  | .while condition body =>
    "while" :: "(" :: condition.tokens ν ++ ")" :: Stmt.blockTokens body ++ ["endwhile"]
  | .try body handlers =>
    "try" :: Stmt.blockTokens body ++ Handler.tokens handlers ++ ["endtry"]
  | .break => ["break", ";"]
  | .continue => ["continue", ";"]
  | .return none => ["return", ";"]
  | .return (some e) => "return" :: e.tokens ν ++ [";"]
  | .expr e => e.tokens ν ++ [";"]

/-- The statements of a block. -/
def Stmt.blockTokens : List Stmt → List String
  | [] => []
  | stmt :: rest => Stmt.tokens stmt ++ Stmt.blockTokens rest

/-- The arms of a branch, the first of which a keyword opens. -/
def Stmt.armTokens (keyword : String) : List (Expr × List Stmt) → List String
  | [] => []
  | (condition, body) :: rest => keyword :: "(" :: condition.tokens ν ++
      ")" :: Stmt.blockTokens body ++ Stmt.armTokens "elseif" rest

def Handler.tokens : List Handler → List String
  | [] => []
  | .mk name codes body :: rest => "except" :: (name.map ν).toList ++
      "(" :: codes.tokens ν ++ ")" :: Stmt.blockTokens body ++ Handler.tokens rest

end

end

/-! ## Tokens as text -/

/-- Whether a character is white space between tokens. -/
def isSpace (ch : Char) : Bool := ch == ' ' || ch == '\t' || ch == '\n' || ch == '\r'

/-- White space and whole comments. -/
inductive Blanks : List Char → Prop
  | nil : Blanks []
  | space {ch : Char} {rest : List Char} (hch : isSpace ch = true) (h : Blanks rest) :
      Blanks (ch :: rest)
  /-- A comment up to the first end of a comment in it. -/
  | block {body rest : List Char} (hbody : ¬ ['*', '/'] <:+: body) (h : Blanks rest) :
      Blanks ('/' :: '*' :: body ++ '*' :: '/' :: rest)
  /-- A comment up to the end of its line. -/
  | line {body rest : List Char} {ch : Char} (hbody : ∀ x ∈ body, x ≠ '\n' ∧ x ≠ '\r')
      (hch : ch = '\n' ∨ ch = '\r') (h : Blanks (ch :: rest)) :
      Blanks ('/' :: '/' :: body ++ ch :: rest)

/-- What stands between two tokens. -/
def Gap (text : List Char) : Prop := Blanks text ∧ ∃ ch ∈ text.head?, isSpace ch = true

/-- The tokens follow, each behind a gap; there may be a gap behind the last one, too. -/
def Spaced : List String → List Char → Prop
  | [], text => text = [] ∨ Gap text
  | t :: ts, text => ∃ gap rest, text = gap ++ (t.toList ++ rest) ∧ Gap gap ∧ Spaced ts rest

/-- A text that spells tokens with gaps between them. -/
def LaidOut : List String → List Char → Prop
  | [], text => Blanks text
  | t :: ts, text => ∃ blanks rest, text = blanks ++ (t.toList ++ rest) ∧ Blanks blanks ∧ Spaced ts rest

/-! ## What can be printed -/

/-- A constant that is one token; a code that is not built in may stand only where such codes are
allowed. -/
def IsLiteral (customErrors : Bool) : Value → Prop
  | .null | .bool _ | .str _ | .obj _ => True
  | .int n => 0 ≤ n.toInt
  | .err e => e.message? = none ∧ e.code.Spellable ∧ (e.code.isCustom = true → customErrors = true)
  | .float _ | .list _ | .map _ => False

/-- A variable, a property or an element. -/
def Expr.isPlace : Expr → Bool
  | .var _ | .prop _ _ | .index _ _ => true
  | _ => false

mutual

/-- An expression that assigns only places, with functions named by identifiers in lower case and
at most one target for the rest in each scattering assignment. -/
def Expr.Printable : Expr → Prop
  | .value _ | .var _ => True
  | .assign target value => target.isPlace = true ∧ Expr.Printable target ∧ Expr.Printable value
  | .binary _ left right | .and left right | .or left right =>
    Expr.Printable left ∧ Expr.Printable right
  | .unary _ operand => Expr.Printable operand
  | .prop object property => Expr.Printable object ∧ Expr.Printable property
  | .call function args => (isIdentifier function = true ∧ Text.lower function.toList = function.toList) ∧
      Arg.PrintableIn args
  | .verb object name args => Expr.Printable object ∧ Expr.Printable name ∧ Arg.PrintableIn args
  | .range base first last => Expr.Printable base ∧ Expr.Printable first ∧ Expr.Printable last
  | .cond condition consequence alternative =>
    Expr.Printable condition ∧ Expr.Printable consequence ∧ Expr.Printable alternative
  | .index base index => Expr.Printable base ∧ Expr.Printable index
  | .list items => Arg.PrintableIn items
  | .map entries => Expr.PrintableIn entries
  | .scatter targets source => (targets ≠ [] ∧ countRests targets ≤ 1) ∧
      Target.PrintableIn targets ∧ Expr.Printable source

def Arg.PrintableIn : List Arg → Prop
  | [] => True
  | .item e :: rest | .splice e :: rest => Expr.Printable e ∧ Arg.PrintableIn rest

def Expr.PrintableIn : List (Expr × Expr) → Prop
  | [] => True
  | (key, value) :: rest => Expr.Printable key ∧ Expr.Printable value ∧ Expr.PrintableIn rest

def Target.PrintableIn : List Target → Prop
  | [] => True
  | .optional _ (some default) :: rest => Expr.Printable default ∧ Target.PrintableIn rest
  | _ :: rest => Target.PrintableIn rest

end

section

variable (ν : Name → String)

/-- The codes do not start with the word `any`, which would be taken for every code. -/
def Codes.Printable : Codes → Prop
  | .any => True
  | .listed codes => codes ≠ [] ∧ (commas (Arg.tokens ν codes)).head? ≠ some "any" ∧
      Arg.PrintableIn codes

mutual

/-- A statement of printable expressions; a branch has an arm and a `try` a handler. -/
def Stmt.Printable : Stmt → Prop
  | .mk _ _ node => StmtNode.Printable node

def StmtNode.Printable : StmtNode → Prop
  | .branch arms otherwise => arms ≠ [] ∧ Stmt.PrintableArms arms ∧
      (match otherwise with
        | some body => Stmt.PrintableIn body
        | none => True)
  | .forList _ source body => source.Printable ∧ Stmt.PrintableIn body
  | .forRange _ first last body => first.Printable ∧ last.Printable ∧ Stmt.PrintableIn body
  | .while condition body => condition.Printable ∧ Stmt.PrintableIn body
  | .try body handlers => handlers ≠ [] ∧ Stmt.PrintableIn body ∧ Handler.PrintableIn handlers
  | .break | .continue | .return none => True
  | .return (some e) | .expr e => e.Printable

def Stmt.PrintableIn : List Stmt → Prop
  | [] => True
  | stmt :: rest => Stmt.Printable stmt ∧ Stmt.PrintableIn rest

def Stmt.PrintableArms : List (Expr × List Stmt) → Prop
  | [] => True
  | (condition, body) :: rest =>
    condition.Printable ∧ Stmt.PrintableIn body ∧ Stmt.PrintableArms rest

def Handler.PrintableIn : List Handler → Prop
  | [] => True
  | .mk _ codes body :: rest =>
    codes.Printable ν ∧ Stmt.PrintableIn body ∧ Handler.PrintableIn rest

end

end

/-! ## Trees up to their slots and positions -/

section

variable (f : Name → Name)

mutual

/-- The expression with other slots for its variables. -/
def Expr.recast : Expr → Expr
  | .assign target value => .assign (Expr.recast target) (Expr.recast value)
  | .value v => .value v
  | .var name => .var (f name)
  | .binary op left right => .binary op (Expr.recast left) (Expr.recast right)
  | .and left right => .and (Expr.recast left) (Expr.recast right)
  | .or left right => .or (Expr.recast left) (Expr.recast right)
  | .unary op operand => .unary op (Expr.recast operand)
  | .prop object property => .prop (Expr.recast object) (Expr.recast property)
  | .call function args => .call function (Arg.recastIn args)
  | .verb object name args => .verb (Expr.recast object) (Expr.recast name) (Arg.recastIn args)
  | .range base first last => .range (Expr.recast base) (Expr.recast first) (Expr.recast last)
  | .cond condition consequence alternative =>
    .cond (Expr.recast condition) (Expr.recast consequence) (Expr.recast alternative)
  | .index base index => .index (Expr.recast base) (Expr.recast index)
  | .list items => .list (Arg.recastIn items)
  | .map entries => .map (Expr.recastIn entries)
  | .scatter targets source => .scatter (Target.recastIn targets) (Expr.recast source)

def Arg.recastIn : List Arg → List Arg
  | [] => []
  | .item e :: rest => .item (Expr.recast e) :: Arg.recastIn rest
  | .splice e :: rest => .splice (Expr.recast e) :: Arg.recastIn rest

def Expr.recastIn : List (Expr × Expr) → List (Expr × Expr)
  | [] => []
  | (key, value) :: rest => (Expr.recast key, Expr.recast value) :: Expr.recastIn rest

def Target.recastIn : List Target → List Target
  | [] => []
  | .required name :: rest => .required (f name) :: Target.recastIn rest
  | .rest name :: rest => .rest (f name) :: Target.recastIn rest
  | .optional name none :: rest => .optional (f name) none :: Target.recastIn rest
  | .optional name (some default) :: rest =>
    .optional (f name) (some (Expr.recast default)) :: Target.recastIn rest

end

def Codes.recast : Codes → Codes
  | .any => .any
  | .listed codes => .listed (Arg.recastIn f codes)

mutual

/-- The statement with other slots for its variables and without positions. -/
def Stmt.recast : Stmt → Stmt
  | .mk _ _ node => .mk 0 0 (StmtNode.recast node)

def StmtNode.recast : StmtNode → StmtNode
  | .branch arms otherwise => .branch (Stmt.recastArms arms)
      (match otherwise with
        | some body => some (Stmt.recastIn body)
        | none => none)
  | .forList name source body => .forList (f name) (source.recast f) (Stmt.recastIn body)
  | .forRange name first last body =>
    .forRange (f name) (first.recast f) (last.recast f) (Stmt.recastIn body)
  | .while condition body => .while (condition.recast f) (Stmt.recastIn body)
  | .try body handlers => .try (Stmt.recastIn body) (Handler.recastIn handlers)
  | .break => .break
  | .continue => .continue
  | .return none => .return none
  | .return (some e) => .return (some (e.recast f))
  | .expr e => .expr (e.recast f)

def Stmt.recastIn : List Stmt → List Stmt
  | [] => []
  | stmt :: rest => Stmt.recast stmt :: Stmt.recastIn rest

def Stmt.recastArms : List (Expr × List Stmt) → List (Expr × List Stmt)
  | [] => []
  | (condition, body) :: rest =>
    (condition.recast f, Stmt.recastIn body) :: Stmt.recastArms rest

def Handler.recastIn : List Handler → List Handler
  | [] => []
  | .mk name codes body :: rest =>
    .mk (name.map f) (codes.recast f) (Stmt.recastIn body) :: Handler.recastIn rest

end

end

end Lineage.Script
