/-
  Lineage.Script.Reader

  From text to syntax trees.

  `SyntaxTree.read` matches the grammar and then turns the tree of rules into
  statements, giving variables their slots in the order in which it meets them.
  Literals are evaluated here, so a number that does not fit is an error here, and so
  is a variable that `let` introduces twice.
-/
import Lineage.Script.Grammar
import Lineage.Script.Precedence
import Lineage.Decimal.Reading
import Lineage.Text.Quoted

namespace Lineage.Script

/-- The slot of a name. -/
def slotOf (name : String) : Reading Name := fun scope =>
  let (n, names) := scope.names.intern name
  .ok (n, { scope with names })

/-- The name of a literal in a message, with what is wrong with it. -/
def badLiteral {α : Type} (kind text why : String) : Reading α :=
  throw (.badLiteral ("invalid " ++ kind ++ " literal '" ++ text ++ "': " ++ why))

/-- Read an atom. -/
def readAtom (rule : Rule) (text : String) : Reading Expr := do
  match rule with
  | .integer =>
    match Numeral.read text.toList with
    | .ok n => return .value (.int n)
    | .error e => badLiteral "integer" text e.message
  | .float =>
    match Decimal.read text.toList with
    | some x => return .value (.float x)
    | none => badLiteral "float" text "invalid float literal"
  | .string =>
    match Text.unquote text.toList with
    | .ok s => return .value (.str (String.ofList s))
    | .error e => badLiteral "string" text e.message
  | .object =>
    match Numeral.read (text.toList.drop 1) with
    | .ok n => return .value (.obj ⟨n⟩)
    | .error e => badLiteral "object" text e.message
  | .errorCode =>
    match ErrorCode.read text with
    | none => throw (.badLiteral ("invalid error value: " ++ text))
    | some code =>
      if code.isCustom && !(← get).customErrors then
        throw (.disabledFeature ("custom error " ++ text))
      return .value (.err ⟨code, none⟩)
  | .boolean => return .value (.bool (startsWithWord ['t'] text.toList))
  | .nullValue => return .value .null
  | _ => return .var (← slotOf text)

/-- The operator of a rule that stands between two operands. -/
def infixPiece? : Rule → Option Piece
  | .lor => some (.between Strength.either false .or)
  | .land => some (.between Strength.both false .and)
  | .eq => some (.between Strength.equality false (.binary .eq))
  | .neq => some (.between Strength.equality false (.binary .ne))
  | .lt => some (.between Strength.relation false (.binary .lt))
  | .lte => some (.between Strength.relation false (.binary .le))
  | .gt => some (.between Strength.relation false (.binary .gt))
  | .gte => some (.between Strength.relation false (.binary .ge))
  | .inOp => some (.between Strength.membership false (.binary .mem))
  | .add => some (.between Strength.sum false (.binary .add))
  | .sub => some (.between Strength.sum false (.binary .sub))
  | .mul => some (.between Strength.product false (.binary .mul))
  | .div => some (.between Strength.product false (.binary .div))
  | .modulus => some (.between Strength.product false (.binary .mod))
  | .pow => some (.between Strength.power true (.binary .exp))
  | _ => none

/-- How many targets take the rest. -/
def countRests (targets : List Target) : Nat :=
  targets.countP fun
    | .rest _ => true
    | _ => false

mutual

/-- Read an expression from the tree of its run. -/
def readExpr : Tree Rule → Reading Expr
  | .node _ _ _ _ parts => Piece.readAll (pieces parts)

def pieces : List (Tree Rule) → List Piece
  | [] => []
  | t :: rest => piece t :: pieces rest

/-- One operator or operand of a run. -/
def piece : Tree Rule → Piece
  | .node rule _ _ _ parts =>
    match rule, parts with
    | .neg, _ => .before Strength.sign fun e => return .unary .neg e
    | .not, _ => .before Strength.sign fun e => return .unary .not e
    | .scatterAssign, targets => .before Strength.assignment fun source => do
      let targets ← readTargets targets
      if 1 < countRests targets then throw .invalidAssignment
      return .scatter targets source
    | .atom, [.node kind _ _ text _] => .operand (readAtom kind (String.ofList text))
    | .parenExpr, [e] => .operand (readExpr e)
    | .sysprop, [.node _ _ _ name _] =>
      .operand (return .call "alias" [.item (.value (.str (String.ofList name)))])
    | .builtinCall, [.node _ _ _ name _, .node _ _ _ _ args] => .operand do
      return .call (String.ofList (Text.lower name)) (← readArglist args)
    | .list, args => .operand do return .list (← readArglist args)
    | .map, parts => .operand do return .map (← readEntries parts)
    | .verbCall, [.node _ _ _ name _, .node _ _ _ _ args] => .after Strength.access do
      let args ← readArglist args
      return fun object => .verb object (.value (.str (String.ofList name))) args
    | .verbExprCall, [name, .node _ _ _ _ args] => .after Strength.access do
      let name ← readExpr name
      let args ← readArglist args
      return fun object => .verb object name args
    | .prop, [.node _ _ _ name _] => .after Strength.access
      (return fun object => .prop object (.value (.str (String.ofList name))))
    | .propExpr, [name] => .after Strength.access do
      let name ← readExpr name
      return fun object => .prop object name
    | .indexSingle, [index] => .after Strength.access do
      let index ← readExpr index
      return fun base => .index base index
    | .indexRange, [first, last] => .after Strength.access do
      let first ← readExpr first
      let last ← readExpr last
      return fun base => .range base first last
    | .assign, [right] => .after Strength.assignment do
      let right ← readExpr right
      return fun left => .assign left right
    | .condExpr, [consequence, alternative] => .after Strength.conditional do
      let consequence ← readExpr consequence
      let alternative ← readExpr alternative
      return fun condition => .cond condition consequence alternative
    | rule, _ => (infixPiece? rule).getD (.operand (pure default))

/-- Read arguments from the parts of a list or call: nothing, or one list of expressions. -/
def readArglist : List (Tree Rule) → Reading (List Arg)
  | [.node _ _ _ _ args] => readArgs args
  | _ => return []

def readArgs : List (Tree Rule) → Reading (List Arg)
  | .node _ _ _ text [e] :: rest => do
    let e ← readExpr e
    let arg := if text.head? = some '@' then Arg.splice e else Arg.item e
    return arg :: (← readArgs rest)
  | _ => return []

/-- Read keys and values, which alternate. -/
def readEntries : List (Tree Rule) → Reading (List (Expr × Expr))
  | key :: value :: rest => do
    let key ← readExpr key
    let value ← readExpr value
    return (key, value) :: (← readEntries rest)
  | _ => return []

def readTargets : List (Tree Rule) → Reading (List Target)
  | [] => return []
  | t :: rest => do
    let target ← readTarget t
    return target :: (← readTargets rest)

/-- Read one target of a scattering assignment. -/
def readTarget : Tree Rule → Reading Target
  | .node .scatterOptional _ _ _ [.node _ _ _ name _, default] => do
    let n ← slotOf (String.ofList name)
    return .optional n (some (← readExpr default))
  | .node .scatterOptional _ _ _ (.node _ _ _ name _ :: _) => do
    return .optional (← slotOf (String.ofList name)) none
  | .node .scatterRest _ _ _ (.node _ _ _ name _ :: _) => do
    return .rest (← slotOf (String.ofList name))
  | .node _ _ _ text parts => do
    return .required (← slotOf (String.ofList (match parts with
      | .node _ _ _ name _ :: _ => name
      | [] => text)))

end

/-- Introduce a variable with `let`: one that is new, and not bound from the start. -/
def declare (name : String) : Reading Name := do
  let n ← slotOf name
  let scope ← get
  if Names.isGlobal n || scope.declared.contains n then throw (.duplicateVariable name)
  set { scope with declared := n :: scope.declared }
  return n

mutual

/-- Read statements, dropping empty ones. -/
def readStatements : List (Tree Rule) → Reading (List Stmt)
  | [] => return []
  | .node _ _ _ _ [inner] :: rest => do
    match ← readStatement inner with
    | some s => return s :: (← readStatements rest)
    | none => readStatements rest
  | _ :: rest => readStatements rest

/-- Read a block from the tree of its statements. -/
def readBlock : Tree Rule → Reading (List Stmt)
  | .node _ _ _ _ statements => readStatements statements

/-- Read a statement, if it is not empty. -/
def readStatement : Tree Rule → Reading (Option Stmt)
  | .node rule line column _ parts => do
    return (← readNode rule parts).map (.mk line column)

/-- Read what a statement is from its rule and parts. -/
def readNode : Rule → List (Tree Rule) → Reading (Option StmtNode)
  | .exprStatement, [e] => do return some (.expr (← readExpr e))
  | .ifStatement, condition :: block :: clauses => do
    let condition ← readExpr condition
    let block ← readBlock block
    let (arms, otherwise) ← readClauses clauses
    return some (.branch ((condition, block) :: arms) otherwise)
  | .whileStatement, [condition, block] => do
    let condition ← readExpr condition
    return some (.while condition (← readBlock block))
  | .forInStatement, [.node _ _ _ name _, source, block] => do
    let n ← slotOf (String.ofList name)
    let source ← readExpr source
    return some (.forList n source (← readBlock block))
  | .forRangeStatement, [.node _ _ _ name _, first, last, block] => do
    let n ← slotOf (String.ofList name)
    let first ← readExpr first
    let last ← readExpr last
    return some (.forRange n first last (← readBlock block))
  | .tryExceptStatement, block :: clauses => do
    let block ← readBlock block
    return some (.try block (← readHandlers clauses))
  | .breakStatement, _ => return some .break
  | .continueStatement, _ => return some .continue
  | .returnStatement, [e] => do return some (.return (some (← readExpr e)))
  | .returnStatement, _ => return some (.return none)
  | .letStatement, [.node _ _ _ name _, e] => do
    let n ← declare (String.ofList name)
    return some (.expr (.assign (.var n) (← readExpr e)))
  | .letStatement, .node _ _ _ name _ :: _ => do
    return some (.expr (.assign (.var (← declare (String.ofList name))) (.value .null)))
  | _, _ => return none

/-- Read the clauses after the first block of a branch. -/
def readClauses : List (Tree Rule) → Reading (List (Expr × List Stmt) × Option (List Stmt))
  | .node .elseifClause _ _ _ [condition, block] :: rest => do
    let condition ← readExpr condition
    let block ← readBlock block
    let (arms, otherwise) ← readClauses rest
    return ((condition, block) :: arms, otherwise)
  | .node _ _ _ _ [block] :: _ => do return ([], some (← readBlock block))
  | _ => return ([], none)

def readHandlers : List (Tree Rule) → Reading (List Handler)
  | .node _ _ _ _ [.node _ _ _ _ [.node _ _ _ name _], .node _ _ _ _ [codes], block] :: rest => do
    let n ← slotOf (String.ofList name)
    let codes ← readCodes codes
    let block ← readBlock block
    return .mk (some n) codes block :: (← readHandlers rest)
  | .node _ _ _ _ [.node _ _ _ _ [codes], block] :: rest => do
    let codes ← readCodes codes
    let block ← readBlock block
    return .mk none codes block :: (← readHandlers rest)
  | _ => return []

/-- Read the codes of a clause. -/
def readCodes : Tree Rule → Reading Codes
  | .node .exprlist _ _ _ args => do return .listed (← readArgs args)
  | _ => return .any

end

/-! ## Messages about text outside the grammar -/

/-- The line that starts after `before` lines, with its line end. -/
def lineAt : Nat → List Char → List Char
  | 0, text => text.takeWhile (· != '\n') ++ (text.dropWhile (· != '\n')).take 1
  | n + 1, text => lineAt n ((text.dropWhile (· != '\n')).drop 1)

/-- The line shown with an error: without its end, unless the error is at a line end, which is
then made visible. -/
def contextLine (text : List Char) (f : Failures Rule) : String :=
  let line := lineAt (f.line - 1) text
  let atEnd := match (text.drop f.offset).head? with
    | some c => c = '\r' || c = '\n'
    | none => false
  let shown := if atEnd then
      line.map fun c => if c = '\r' then '␍' else if c = '\n' then '␊' else c
    else line.filter fun c => c != '\r' && c != '\n'
  String.ofList shown

/-- Names of rules as a choice: `a`, `a or b`, `a, b, or c`. -/
def enumerate : List String → String
  | [] => ""
  | [a] => a
  | [a, b] => a ++ " or " ++ b
  | names => ", ".intercalate (names.dropLast ++ ["or " ++ names.getLastD ""])

/-- What would have been accepted where a text left the grammar. -/
def expectation (f : Failures Rule) : String :=
  "expected " ++ enumerate ((Rule.names.filter fun r => f.rules.contains r.1).map Prod.snd)

/-- The error for a text outside the grammar. -/
def syntaxError (text : List Char) (f : Failures Rule) : CompileError :=
  .badSyntax f.line f.column (contextLine text f) (expectation f)

/-- Read a script. -/
def SyntaxTree.read (source : String) (customErrors : Bool) : Except CompileError SyntaxTree :=
  let text := source.toList
  match grammar.parse .program text with
  | (failures, none) => .error (syntaxError text failures)
  | (_, some (_, trees)) =>
    match trees with
    | [.node _ _ _ _ (.node _ _ _ _ statements :: _)] => do
      let (statements, scope) ← (readStatements statements).run ⟨.initial, [], customErrors⟩
      return ⟨statements, scope.names⟩
    | _ => return ⟨[], .initial⟩

end Lineage.Script
