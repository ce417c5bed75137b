/-
  Lineage.Script.Grammar

  The grammar of scripts.

  Precedence is not in the grammar: an expression is a flat run of operators and
  operands here.  Keywords are read in any case; an identifier is a word that is no
  keyword.
-/
import Lineage.Grammar.Matching

namespace Lineage.Script

/-- The rules, in the order in which failures are listed. -/
inductive Rule where
  | endOfInput
  | program
  | statements
  | statement
  | ifStatement
  | elseifClause
  | elseClause
  | forRangeStatement
  | forInStatement
  | whileStatement
  | tryExceptStatement
  | exceptClause
  | exceptVar
  | exceptCodes
  | anycode
  | breakStatement
  | continueStatement
  | returnStatement
  | letStatement
  | exprStatement
  | expr
  | lor
  | land
  | eq
  | neq
  | lte
  | gte
  | lt
  | gt
  | inOp
  | add
  | sub
  | mul
  | div
  | modulus
  | pow
  | neg
  | not
  | scatterAssign
  | scatterOptional
  | scatterRest
  | scatterTarget
  | indexRange
  | indexSingle
  | verbCall
  | verbExprCall
  | propExpr
  | prop
  | assign
  | condExpr
  | parenExpr
  | list
  | map
  | builtinCall
  | sysprop
  | arglist
  | exprlist
  | argument
  | atom
  | float
  | integer
  | string
  | object
  | errorCode
  | boolean
  | nullValue
  | ident
  | kwIf
  | kwFor
  | kwWhile
  | kwTry
  | kwBreak
  | kwContinue
  | kwReturn
  | kwLet
  deriving DecidableEq

namespace Rule

/-- The rules with their names in messages, in order. -/
def names : List (Rule × String) :=
  [(.endOfInput, "EOI"), (.program, "program"), (.statements, "statements"),
   (.statement, "statement"), (.ifStatement, "if_statement"),
   (.elseifClause, "elseif_clause"), (.elseClause, "else_clause"),
   (.forRangeStatement, "for_range_statement"), (.forInStatement, "for_in_statement"),
   (.whileStatement, "while_statement"), (.tryExceptStatement, "try_except_statement"),
   (.exceptClause, "except_clause"), (.exceptVar, "except_var"),
   (.exceptCodes, "except_codes"), (.anycode, "anycode"),
   (.breakStatement, "break_statement"), (.continueStatement, "continue_statement"),
   (.returnStatement, "return_statement"), (.letStatement, "let_statement"),
   (.exprStatement, "expr_statement"), (.expr, "expr"), (.lor, "lor"), (.land, "land"),
   (.eq, "eq"), (.neq, "neq"), (.lte, "lte"), (.gte, "gte"), (.lt, "lt"), (.gt, "gt"),
   (.inOp, "in_op"), (.add, "add"), (.sub, "sub"), (.mul, "mul"), (.div, "div"),
   (.modulus, "modulus"), (.pow, "pow"), (.neg, "neg"), (.not, "not"),
   (.scatterAssign, "scatter_assign"), (.scatterOptional, "scatter_optional"),
   (.scatterRest, "scatter_rest"), (.scatterTarget, "scatter_target"),
   (.indexRange, "index_range"), (.indexSingle, "index_single"), (.verbCall, "verb_call"),
   (.verbExprCall, "verb_expr_call"), (.propExpr, "prop_expr"), (.prop, "prop"),
   (.assign, "assign"), (.condExpr, "cond_expr"), (.parenExpr, "paren_expr"),
   (.list, "list"), (.map, "map"), (.builtinCall, "builtin_call"), (.sysprop, "sysprop"),
   (.arglist, "arglist"), (.exprlist, "exprlist"), (.argument, "argument"),
   (.atom, "atom"), (.float, "float"), (.integer, "integer"), (.string, "string"),
   (.object, "object"), (.errorCode, "error_code"), (.boolean, "boolean"),
   (.nullValue, "null_value"), (.ident, "ident"), (.kwIf, "kw_if"), (.kwFor, "kw_for"),
   (.kwWhile, "kw_while"), (.kwTry, "kw_try"), (.kwBreak, "kw_break"),
   (.kwContinue, "kw_continue"), (.kwReturn, "kw_return"), (.kwLet, "kw_let")]

end Rule

/-! ## Characters and words -/

def isDigit (c : Char) : Bool := '0' ≤ c && c ≤ '9'
def isUpper (c : Char) : Bool := 'A' ≤ c && c ≤ 'Z'
def isLower (c : Char) : Bool := 'a' ≤ c && c ≤ 'z'

/-- A character that may start an identifier. -/
def startsIdent (c : Char) : Bool := isUpper c || isLower c || c == '_'

/-- A character that may continue an identifier. -/
def isIdentChar (c : Char) : Bool := startsIdent c || isDigit c

namespace Rules

/-- A fixed text. -/
def lit (s : String) : Pattern Rule := .text s.toList

/-- A word in any case. -/
def word (s : String) : Pattern Rule := .word s.toList

def expr : Pattern Rule := .rule .expr
def ident : Pattern Rule := .rule .ident
def statements : Pattern Rule := .rule .statements
def digits : Pattern Rule := .plus (.char isDigit)
def anyChar : Pattern Rule := .char fun _ => true

/-- Nothing that would continue a word follows. -/
def wordEnd : Pattern Rule := .notAhead (.char isIdentChar)

/-- A line end: a line feed, a carriage return, or both. -/
def newLine : Pattern Rule := .any [lit "\n", lit "\r\n", lit "\r"]

/-- Items separated by commas. -/
def commaSeparated (item : Pattern Rule) : Pattern Rule :=
  .all [item, .star (.all [lit ",", item])]

/-- The words that are no identifiers.  Of two words the longer one comes first where it
starts with the other. -/
def keywords : List String :=
  ["elseif", "else", "endif", "endwhile", "endfor", "endtry", "except", "if", "while", "for", "in",
   "try", "break", "continue", "return", "let", "true", "false", "null"]

def infixOps : List Rule :=
  [.lor, .land, .eq, .neq, .lte, .gte, .lt, .gt, .inOp, .add, .sub, .mul, .div, .modulus, .pow]

def prefixOps : List Rule := [.neg, .not, .scatterAssign]

def postfixOps : List Rule :=
  [.indexRange, .indexSingle, .verbCall, .verbExprCall, .propExpr, .prop, .assign, .condExpr]

def primaries : List Rule := [.parenExpr, .list, .map, .builtinCall, .sysprop, .atom]

/-- One of several rules. -/
def oneOf (rules : List Rule) : Pattern Rule := .any (rules.map .rule)

/-- An operand with its prefix and postfix operators. -/
def operand : Pattern Rule :=
  .all [.star (oneOf prefixOps), oneOf primaries, .star (oneOf postfixOps)]

def exponent : Pattern Rule := .all [word "e", .opt (.any [lit "+", lit "-"]), digits]

/-- A rule whose spacing is that of its surroundings. -/
def plain (parts : List (Pattern Rule)) : RuleBody Rule := ⟨none, .all parts⟩

/-- A rule without blanks and without trees inside. -/
def sealed (parts : List (Pattern Rule)) : RuleBody Rule := ⟨some .sealed, .all parts⟩

/-- A keyword as a whole word. -/
def keyword (s : String) : RuleBody Rule := sealed [word s, wordEnd]

/-- A statement that a keyword opens. -/
def keyed (kw : Rule) (s : String) (parts : List (Pattern Rule)) : RuleBody Rule :=
  plain (.ahead (.rule kw) :: word s :: parts)

/-- The body of each rule. -/
def body : Rule → RuleBody Rule
  | .endOfInput => plain [.finish]
  -- The empty text lets blanks stand before the first statement.
  | .program => plain [lit "", statements, .rule .endOfInput]
  | .statements => plain [.star (.rule .statement)]
  | .statement => ⟨none, oneOf [.ifStatement, .forRangeStatement, .forInStatement, .whileStatement,
      .tryExceptStatement, .breakStatement, .continueStatement, .returnStatement, .letStatement,
      .exprStatement]⟩
  | .ifStatement => keyed .kwIf "if" [lit "(", expr, lit ")", statements,
      .star (.rule .elseifClause), .opt (.rule .elseClause), word "endif"]
  | .elseifClause => plain [word "elseif", lit "(", expr, lit ")", statements]
  | .elseClause => plain [word "else", statements]
  | .forRangeStatement => keyed .kwFor "for" [ident, word "in", lit "[", expr, lit "..", expr, lit "]",
      statements, word "endfor"]
  | .forInStatement => keyed .kwFor "for" [ident, word "in", lit "(", expr, lit ")", statements,
      word "endfor"]
  | .whileStatement => keyed .kwWhile "while" [lit "(", expr, lit ")", statements, word "endwhile"]
  | .tryExceptStatement => keyed .kwTry "try" [statements, .plus (.rule .exceptClause), word "endtry"]
  | .exceptClause => plain [word "except", .opt (.rule .exceptVar), lit "(", .rule .exceptCodes,
      lit ")", statements]
  | .exceptVar => plain [ident]
  | .exceptCodes => ⟨none, oneOf [.anycode, .exprlist]⟩
  | .anycode => keyword "any"
  | .breakStatement => keyed .kwBreak "break" [lit ";"]
  | .continueStatement => keyed .kwContinue "continue" [lit ";"]
  | .returnStatement => keyed .kwReturn "return" [.opt expr, lit ";"]
  | .letStatement => keyed .kwLet "let" [ident, .opt (.all [lit "=", expr]), lit ";"]
  | .exprStatement => plain [.opt expr, lit ";"]
  | .expr => plain [operand, .star (.all [oneOf infixOps, operand])]
  | .lor => plain [lit "||"]
  | .land => plain [lit "&&"]
  | .eq => plain [lit "=="]
  | .neq => plain [lit "!="]
  | .lte => plain [lit "<="]
  | .gte => plain [lit ">="]
  | .lt => plain [lit "<"]
  | .gt => plain [lit ">"]
  | .inOp => keyword "in"
  | .add => plain [lit "+"]
  | .sub => sealed [lit "-", .notAhead (lit ">")]
  | .mul => plain [lit "*"]
  | .div => plain [lit "/"]
  | .modulus => plain [lit "%"]
  | .pow => plain [lit "^"]
  | .neg => plain [lit "-"]
  | .not => plain [lit "!"]
  | .scatterAssign => plain [lit "\x7b",
      commaSeparated (oneOf [.scatterOptional, .scatterRest, .scatterTarget]), lit "\x7d", lit "=",
      .notAhead (lit "=")]
  | .scatterOptional => plain [lit "?", ident, .opt (.all [lit "=", expr])]
  | .scatterRest => plain [lit "@", ident]
  | .scatterTarget => plain [ident]
  | .indexRange => plain [lit "[", expr, lit "..", expr, lit "]"]
  | .indexSingle => plain [lit "[", expr, lit "]"]
  | .verbCall => plain [lit ":", ident, .rule .arglist]
  | .verbExprCall => plain [lit ":", lit "(", expr, lit ")", .rule .arglist]
  | .propExpr => plain [lit ".", lit "(", expr, lit ")"]
  | .prop => plain [lit ".", ident]
  | .assign => plain [lit "=", .notAhead (lit "="), expr]
  | .condExpr => plain [lit "?", expr, lit "|", expr]
  | .parenExpr => plain [lit "(", expr, lit ")"]
  | .list => plain [lit "\x7b", .opt (.rule .exprlist), lit "\x7d"]
  | .map => plain [lit "[", .opt (commaSeparated (.all [expr, lit "->", expr])), lit "]"]
  | .builtinCall => plain [ident, .rule .arglist]
  | .sysprop => ⟨some .tight, .all [lit "$", ident]⟩
  | .arglist => plain [lit "(", .opt (.rule .exprlist), lit ")"]
  | .exprlist => plain [commaSeparated (.rule .argument)]
  | .argument => ⟨none, .any [.all [lit "@", expr], expr]⟩
  | .atom => ⟨none, oneOf [.float, .integer, .string, .object, .errorCode, .boolean, .nullValue,
      .ident]⟩
  | .float => ⟨some .sealed,
      .any [.all [digits, lit ".", digits, .opt exponent], .all [digits, exponent]]⟩
  | .integer => sealed [digits]
  | .string => sealed [lit "\"",
      .star (.any [.all [lit "\\", anyChar], .all [.notAhead (lit "\""), anyChar]]), lit "\""]
  | .object => sealed [lit "#", .opt (lit "-"), digits]
  | .errorCode => sealed [lit "E_", .plus (.char fun c => isUpper c || isDigit c || c == '_'), wordEnd]
  | .boolean => sealed [.any [word "true", word "false"], wordEnd]
  | .nullValue => keyword "null"
  | .ident => sealed [.notAhead (.all [.any (keywords.map word), wordEnd]), .char startsIdent,
      .star (.char isIdentChar)]
  | .kwIf => keyword "if"
  | .kwFor => keyword "for"
  | .kwWhile => keyword "while"
  | .kwTry => keyword "try"
  | .kwBreak => keyword "break"
  | .kwContinue => keyword "continue"
  | .kwReturn => keyword "return"
  | .kwLet => keyword "let"

/-- A space, a tab, a line end or a comment. -/
def blank : Pattern Rule :=
  .any [lit " ", lit "\t", newLine,
    .all [lit "/*", .star (.all [.notAhead (lit "*/"), anyChar]), lit "*/"],
    .all [lit "//", .star (.all [.notAhead newLine, anyChar])]]

end Rules

/-- The grammar of scripts. -/
def grammar : Grammar Rule := ⟨Rules.body, Rules.blank⟩

end Lineage.Script
