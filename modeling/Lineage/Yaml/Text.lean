/-
  Lineage.Yaml.Text

  The three ways in which YAML writes texts: between quotes, without quotes, and as a
  block of lines.
-/
import Lineage.Yaml.Place
import Lineage.Yaml.Scalar

namespace Lineage.Yaml

/-! ## Quoted text -/

/-- The character of a one-letter escape. -/
def shortEscape? (c : Char) : Option Char :=
  [('0', '\x00'), ('a', '\x07'), ('b', '\x08'), ('t', '\t'), ('\t', '\t'), ('n', '\n'),
    ('v', '\x0b'), ('f', '\x0c'), ('r', '\r'), ('e', '\x1b'), (' ', ' '), ('"', '"'), ('/', '/'),
    ('\\', '\\'), ('N', '\u0085'), ('_', '\u00a0'), ('L', '\u2028'), ('P', '\u2029')].lookup c

/-- How many hexadecimal digits follow an escape letter. -/
def escapeLength? (c : Char) : Option Nat :=
  [('x', 2), ('u', 4), ('U', 8)].lookup c

/-- The character with a code. -/
def charOfCode? (code : Nat) : Option Char :=
  if code.isValidChar then some (Char.ofNat code) else none

/-- The character that an escape stands for, read after its backslash, and how many characters
the escape has there. -/
def escape? : List Char → Option (Char × Nat)
  | [] => none
  | c :: rest =>
    match shortEscape? c with
    | some c => some (c, 1)
    | none => do
      let n ← escapeLength? c
      let digits := rest.take n
      if digits.length < n then none
      else return (← charOfCode? (← natural? 16 digits), n + 1)

/-- The text up to a closing quote; `done` holds what was read, last first.  Between single quotes
two of them stand for one; between double quotes a backslash escapes, also the end of a line. -/
def takeQuoted (quote : Char) (fuel : Nat) (done : List Char) (p : Place) :
    Option (String × Place) :=
  match fuel with
  | 0 => none
  | fuel + 1 =>
    if p.atMarker then none
    else
      match p.text with
      | [] => none
      | c :: rest =>
        if isSpace c then
          let (space, p) := p.takeSpace 0
          takeQuoted quote fuel (space.folded.reverse ++ done) p
        else if c = quote then
          if quote = '\'' && rest.head? == some '\'' then
            takeQuoted quote fuel ('\'' :: done) (p.skip 2)
          else some (String.ofList done.reverse, p.skip 1)
        else if quote = '"' && c = '\\' then
          match (p.skip 1).takeBreak? with
          | some (_, p) =>
            let (space, p) := p.takeSpace 0
            takeQuoted quote fuel (space.breaks ++ done) p
          | none =>
            match escape? rest with
            | some (c, n) => takeQuoted quote fuel (c :: done) (p.skip (n + 1))
            | none => none
        else takeQuoted quote fuel (c :: done) (p.skip 1)

/-- The quoted text at a place. -/
def Place.takeQuoted (p : Place) : Option (String × Place) :=
  match p.text with
  | '\'' :: rest => Yaml.takeQuoted '\'' (rest.length + 1) [] (p.skip 1)
  | '"' :: rest => Yaml.takeQuoted '"' (rest.length + 1) [] (p.skip 1)
  | _ => none

/-! ## Unquoted text -/

/-- The characters that structure collections between brackets. -/
def isFlowMark (c : Char) : Bool :=
  [',', '[', ']', '\x7b', '\x7d'].contains c

/-- Whether unquoted text ends before the rest of a text. -/
def endsPlain (flow : Bool) : List Char → Bool
  | [] => true
  | c :: rest => isSpace c || (c == ':' && atGap rest) || (flow && isFlowMark c)

/-- Between brackets a colon may not run into a mark. -/
def isStray (flow : Bool) : List Char → Bool
  | ':' :: c :: _ => flow && (isFlowMark c || c == '?')
  | _ => false

/-- Unquoted text whose further lines are indented to the column `least` at least; `done` holds
what was read, last first.  Also whether a line ended after it. -/
def takePlain (flow : Bool) (least fuel : Nat) (done : List Char) (p : Place) :
    Option (String × Bool × Place) :=
  match fuel with
  | 0 => none
  | fuel + 1 =>
    if p.text.head?.any isSpace then
      let (space, p) := p.takeSpace least
      if space.tabbed then none
      else if (!flow && p.column < least) || p.atMarker || p.text.head? == some '#'
          || endsPlain flow p.text then
        some (String.ofList done.reverse, space.isBroken, p)
      else takePlain flow least fuel (space.folded.reverse ++ done) p
    else if endsPlain flow p.text then some (String.ofList done.reverse, false, p)
    else if isStray flow p.text then none
    else takePlain flow least fuel (p.text.take 1 ++ done) (p.skip 1)

/-- The unquoted text at a place. -/
def Place.takePlain (flow : Bool) (least : Nat) (p : Place) : Option (String × Bool × Place) :=
  Yaml.takePlain flow least (p.text.length + 1) [] p

/-! ## Blocks of lines -/

/-- Which breaks at the end of a block belong to its text. -/
inductive Chomp where
  | strip
  | clip
  | keep
  deriving DecidableEq

/-- How a block ends when a sign says so. -/
def Chomp.ofSign? : Char → Option Chomp
  | '-' => some .strip
  | '+' => some .keep
  | _ => none

/-- How many columns a digit indents a block by. -/
def indentOfDigit? (c : Char) : Option Nat :=
  if '1' ≤ c && c ≤ '9' then some (c.toNat - '0'.toNat) else none

/-- What stands before a block: a sign and a digit in either order, both optional. -/
def takeBlockHeader (p : Place) : Chomp × Option Nat × Place :=
  let sign (p : Place) : Option Chomp := p.text.head?.bind Chomp.ofSign?
  let digit (p : Place) : Option Nat := p.text.head?.bind indentOfDigit?
  match sign p with
  | some chomp =>
    let p := p.skip 1
    match digit p with
    | some n => (chomp, some n, p.skip 1)
    | none => (chomp, none, p)
  | none =>
    match digit p with
    | some n =>
      let p := p.skip 1
      match sign p with
      | some chomp => (chomp, some n, p.skip 1)
      | none => (.clip, some n, p)
    | none => (.clip, none, p)

/-- Skip the indentation and the empty lines before the next line of a block, up to the column of
the block if that is known.  The result is what is kept of the breaks, the last after `breaks` and
in front, and the largest column that was reached.  Tabs do not indent. -/
def takeEmptyLines (block : Option Nat) (breaks : List Char) (widest index line column : Nat) :
    List Char → Option (List Char × Nat × Place)
  | [] => some (breaks, Nat.max widest column, ⟨[], index, line, column⟩)
  | '\r' :: '\n' :: rest =>
    takeEmptyLines block ('\n' :: breaks) (Nat.max widest column) (index + 2) (line + 1) 0 rest
  | c :: rest =>
    if isBreak c then
      takeEmptyLines block (keptBreak c :: breaks) (Nat.max widest column) (index + 1) (line + 1) 0
        rest
    else if isBlank c && block.all (column < ·) then
      if c = ' ' then takeEmptyLines block breaks widest (index + 1) line (column + 1) rest else none
    else some (breaks, Nat.max widest column, ⟨c :: rest, index, line, column⟩)

/-- The empty lines at a place. -/
def Place.takeEmptyLines (block : Option Nat) (p : Place) : Option (List Char × Nat × Place) :=
  Yaml.takeEmptyLines block [] 0 p.index p.line p.column p.text

/-- The part of a block that was read. -/
structure BlockText where
  /-- The text without the end of its last line, last character first. -/
  done : List Char := []
  /-- The end of the last line. -/
  ending : List Char := []
  /-- The empty lines after it, last first. -/
  empty : List Char := []
  /-- Whether the last line begins with a blank. -/
  afterBlank : Bool := false

/-- The text of a block with the breaks at its end that belong to it. -/
def BlockText.chomped (b : BlockText) : Chomp → String
  | .strip => String.ofList b.done.reverse
  | .clip => String.ofList (b.ending ++ b.done).reverse
  | .keep => String.ofList (b.empty ++ b.ending ++ b.done).reverse

/-- What joins the last line of a block to the next one.  Folding joins two lines with a blank, or
with the empty lines between them, if neither begins with a blank. -/
def BlockText.joint (b : BlockText) (literal beforeBlank : Bool) : List Char :=
  if !literal && b.ending == ['\n'] && !b.afterBlank && !beforeBlank then
    if b.empty.isEmpty then [' '] else b.empty
  else b.empty ++ b.ending

/-- The lines of a block at a column. -/
def takeBlockLines (literal : Bool) (column fuel : Nat) (b : BlockText) (p : Place) :
    Option (BlockText × Place) :=
  match fuel with
  | 0 => none
  | fuel + 1 =>
    if p.column = column && !p.text.isEmpty then
      let beforeBlank := p.text.head?.any isBlank
      let (line, p) := p.takeWhile (!isBreak ·)
      let done := line.reverse ++ b.joint literal beforeBlank ++ b.done
      let (ending, p) := match p.takeBreak? with
        | some (c, p) => ([c], p)
        | none => ([], p)
      match p.takeEmptyLines (some column) with
      | some (empty, _, p) => takeBlockLines literal column fuel ⟨done, ending, empty, beforeBlank⟩ p
      | none => none
    else some (b, p)

/-- The block at a place, in a context whose content is at the column `least` at least.  Without a
digit its column is that of its first line, but not less than of the empty ones before it. -/
def Place.takeBlock (least : Nat) (p : Place) : Option (String × Place) := do
  let literal := p.text.head? == some '|'
  let (chomp, digit, p) := takeBlockHeader (p.skip 1)
  let p ← p.endLine?
  let given := digit.map fun n => least - 1 + n
  let (empty, widest, p) ← p.takeEmptyLines given
  let column := given.getD (Nat.max widest (Nat.max least 1))
  let (block, p) ← takeBlockLines literal column (p.text.length + 1) { empty := empty } p
  return (block.chomped chomp, p)

end Lineage.Yaml
