/-
  Lineage.Yaml.Place

  Places in a YAML text: its lines, its document markers and the space between its
  words.

  A carriage return with a line feed is one break.  A break is kept as a line feed,
  except for the separators of lines and paragraphs, which stand for themselves.
-/
namespace Lineage.Yaml

/-- Whether a text may hold a character. -/
def isAllowed (c : Char) : Bool :=
  let n := c.toNat
  n == 0x09 || n == 0x0A || n == 0x0D || (0x20 ≤ n && n ≤ 0x7E) || n == 0x85
    || (0xA0 ≤ n && n ≤ 0xD7FF) || (0xE000 ≤ n && n ≤ 0xFFFD) || 0x10000 ≤ n

def isBreak (c : Char) : Bool :=
  ['\n', '\r', '\u0085', '\u2028', '\u2029'].contains c

def isBlank (c : Char) : Bool := c == ' ' || c == '\t'

def isSpace (c : Char) : Bool := isBlank c || isBreak c

/-- What is kept of a break. -/
def keptBreak (c : Char) : Char :=
  if c = '\u2028' || c = '\u2029' then c else '\n'

/-- Whether a text is used up or goes on with a blank or break. -/
def atGap : List Char → Bool
  | [] => true
  | c :: _ => isSpace c

/-- A place in a text: what is left of it, how many characters and lines are before, and how far
from the start of its line it is. -/
structure Place where
  text : List Char
  index : Nat := 0
  line : Nat := 0
  column : Nat := 0

namespace Place

/-- The place some characters further on the same line. -/
def skip (p : Place) (n : Nat) : Place :=
  { p with text := p.text.drop n, index := p.index + n, column := p.column + n }

/-- The characters up to the first that does not fit, on one line. -/
def takeWhile (fits : Char → Bool) (p : Place) : List Char × Place :=
  let taken := p.text.takeWhile fits
  (taken, p.skip taken.length)

/-- What is kept of the break at a place, and the start of the next line. -/
def takeBreak? (p : Place) : Option (Char × Place) :=
  match p.text with
  | '\r' :: '\n' :: rest => some ('\n', ⟨rest, p.index + 2, p.line + 1, 0⟩)
  | c :: rest =>
    if isBreak c then some (keptBreak c, ⟨rest, p.index + 1, p.line + 1, 0⟩) else none
  | [] => none

/-- The start of the next line, when this one holds nothing more than blanks and a comment. -/
def endLine? (p : Place) : Option Place :=
  let p := (p.takeWhile isBlank).2
  let p := if p.text.head? == some '#' then (p.takeWhile (!isBreak ·)).2 else p
  if p.text.isEmpty then some p else p.takeBreak?.map (·.2)

/-- Whether a document marker stands here: a line that begins with three times the same
character. -/
def isMarker (mark : Char) (p : Place) : Bool :=
  p.column == 0 && p.text.take 3 == [mark, mark, mark] && atGap (p.text.drop 3)

/-- Whether a document starts or ends here. -/
def atMarker (p : Place) : Bool :=
  p.isMarker '-' || p.isMarker '.'

end Place

/-! ## Space between tokens -/

/-- The next place with content, after spaces, breaks, comments and byte order marks at the start
of a line; and whether a key may stand there, which outside of brackets is so on every new line.
A tab is no space where a key may stand. -/
def seek (flow keyAllowed comment : Bool) (index line column : Nat) : List Char → Bool × Place
  | [] => (keyAllowed, ⟨[], index, line, column⟩)
  | '\r' :: '\n' :: rest => seek flow (keyAllowed || !flow) false (index + 2) (line + 1) 0 rest
  | c :: rest =>
    if isBreak c then seek flow (keyAllowed || !flow) false (index + 1) (line + 1) 0 rest
    else if comment || c == ' ' || (c == '\t' && (flow || !keyAllowed))
        || (c == '\ufeff' && column == 0) then
      seek flow keyAllowed comment (index + 1) line (column + 1) rest
    else if c == '#' then seek flow keyAllowed true (index + 1) line (column + 1) rest
    else (keyAllowed, ⟨c :: rest, index, line, column⟩)

/-! ## Space within texts -/

/-- The space between two words of a text. -/
structure Space where
  /-- The blanks before the first break, last first. -/
  blanks : List Char := []
  /-- What is kept of the breaks, last first. -/
  breaks : List Char := []
  /-- Whether a tab stands where a line ought to be indented. -/
  tabbed : Bool := false

namespace Space

/-- Whether the space goes over the end of a line. -/
def isBroken (s : Space) : Bool := !s.breaks.isEmpty

/-- What the space stands for.  Blanks before a break do not count, and a line feed joins its lines
with a blank, or with the breaks after it. -/
def folded (s : Space) : List Char :=
  match s.breaks.reverse with
  | [] => s.blanks.reverse
  | ['\n'] => [' ']
  | '\n' :: more => more
  | breaks => breaks

/-- Take in a blank at a column, in a text that is indented to the column `least` at least. -/
def addBlank (s : Space) (least column : Nat) (c : Char) : Space :=
  if s.isBroken then { s with tabbed := s.tabbed || (c == '\t' && column < least) }
  else { s with blanks := c :: s.blanks }

/-- Take in what is kept of a break. -/
def addBreak (s : Space) (c : Char) : Space :=
  { s with breaks := c :: s.breaks }

/-- Take in the space at the front of a text. -/
def take (s : Space) (least index line column : Nat) : List Char → Space × Place
  | [] => (s, ⟨[], index, line, column⟩)
  | '\r' :: '\n' :: rest => (s.addBreak '\n').take least (index + 2) (line + 1) 0 rest
  | c :: rest =>
    if isBreak c then (s.addBreak (keptBreak c)).take least (index + 1) (line + 1) 0 rest
    else if isBlank c then
      (s.addBlank least column c).take least (index + 1) line (column + 1) rest
    else (s, ⟨c :: rest, index, line, column⟩)

end Space

/-- The space at a place, in a text that is indented to the column `least` at least. -/
def Place.takeSpace (least : Nat) (p : Place) : Space × Place :=
  ({} : Space).take least p.index p.line p.column p.text

end Lineage.Yaml
