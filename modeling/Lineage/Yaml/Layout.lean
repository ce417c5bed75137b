/-
  Lineage.Yaml.Layout

  The tokens of a YAML text, and the layout that they follow from.

  Block collections are delimited by indentation, for which there are tokens too: one
  where a collection starts and one where it ends.  A key is known only by the colon
  after it.  So wherever a key may stand, the number of tokens before it is kept, and
  its token goes there when the colon comes.
-/
import Lineage.Yaml.Tag
import Lineage.Yaml.Text

namespace Lineage.Yaml

inductive Token where
  | directive (d : Directive)
  | documentStart
  | documentEnd
  /-- The start of a sequence whose items stand in a column. -/
  | blockSequence
  /-- The start of a mapping whose keys stand in a column. -/
  | blockMapping
  | blockEnd
  | flowSequence
  | flowSequenceEnd
  | flowMapping
  | flowMappingEnd
  | separator
  | item
  | key
  | value
  | alias (name : String)
  | anchor (name : String)
  | tag (t : WrittenTag)
  /-- A scalar, `plain` if it is written without quotes and not as a block. -/
  | scalar (plain : Bool) (text : String)
  deriving DecidableEq

/-- Where a key may have started. -/
structure PossibleKey where
  /-- How many tokens are before it. -/
  before : Nat
  start : Place
  /-- Whether nothing but a key can stand there. -/
  required : Bool

/-- A key ends on its line and within 1024 characters. -/
def PossibleKey.isPast (k : PossibleKey) (p : Place) : Bool :=
  k.start.line < p.line || k.start.index + 1024 < p.index

/-- The tokens read so far, and what decides about the next one. -/
structure Layout where
  place : Place
  tokens : Array Token := #[]
  /-- The columns of the open block collections, innermost first. -/
  columns : List Nat := []
  /-- Where the key of the next colon may have started. -/
  key : Option PossibleKey := none
  /-- The same for each pair of brackets around the open one and for what is around them all. -/
  outer : List (Option PossibleKey) := []
  /-- Whether a key may start here. -/
  keyAllowed : Bool := true

namespace Layout

/-- Whether brackets are open. -/
def flow (l : Layout) : Bool := !l.outer.isEmpty

/-- The least column of what belongs into the innermost block collection. -/
def least (l : Layout) : Nat :=
  match l.columns with
  | [] => 0
  | column :: _ => column + 1

/-- Add a token and go on at a place. -/
def push (l : Layout) (t : Token) (p : Place) : Layout :=
  { l with tokens := l.tokens.push t, place := p }

/-! ## Indentation -/

/-- Start a block collection at a column, its token after `before` others.  One at that column may
be open already, and between brackets there are none. -/
def openBlock (l : Layout) (start : Token) (column before : Nat) : Layout :=
  if l.flow || l.columns.head?.any (column ≤ ·) then l
  else
    { l with
      tokens := l.tokens.insertIdxIfInBounds before start
      columns := column :: l.columns }

/-- End the innermost block collections, those at columns that fit. -/
def closeBlocks (l : Layout) (fits : Nat → Bool) : Layout :=
  if l.flow then l
  else
    let closed := l.columns.takeWhile fits
    { l with
      tokens := l.tokens ++ closed.map fun _ => Token.blockEnd
      columns := l.columns.drop closed.length }

/-! ## Keys -/

/-- Give up the possible key, unless it is required. -/
def dropKey (l : Layout) : Option Layout :=
  if l.key.any (·.required) then none else some { l with key := none }

/-- Note that a key may start here. -/
def noteKey (l : Layout) : Option Layout :=
  if l.keyAllowed then do
    let required := !l.flow && l.columns.head? == some l.place.column
    let key := ⟨l.tokens.size, l.place, required⟩
    return { ← l.dropKey with key := some key }
  else some l

/-- A possible key that is past is none. -/
def current? (p : Place) : Option PossibleKey → Option (Option PossibleKey)
  | some k => if !k.isPast p then some (some k) else if k.required then none else some none
  | none => some none

/-- Give up all possible keys that are past. -/
def dropPastKeys (l : Layout) : Option Layout := do
  return { l with key := ← current? l.place l.key, outer := ← l.outer.mapM (current? l.place) }

/-! ## Tokens -/

/-- Read something that a key may start with. -/
def pushStart (l : Layout) (t : Token) (p : Place) : Option Layout := do
  return { (← l.noteKey).push t p with keyAllowed := false }

/-- Open brackets. -/
def openFlow (l : Layout) (t : Token) : Option Layout := do
  let l ← l.noteKey
  return { l.push t (l.place.skip 1) with key := none, outer := l.key :: l.outer, keyAllowed := true }

/-- Close brackets.  The key that may have started with them may go on. -/
def closeFlow (l : Layout) (t : Token) : Option Layout := do
  let l ← l.dropKey
  let (key, outer) := match l.outer with
    | [] => (none, [])
    | key :: outer => (key, outer)
  return { l.push t (l.place.skip 1) with key := key, outer := outer, keyAllowed := false }

/-- Read a separator. -/
def takeSeparator (l : Layout) : Option Layout := do
  let l ← l.dropKey
  return { l.push .separator (l.place.skip 1) with keyAllowed := true }

/-- Read a document marker. -/
def takeMarker (l : Layout) (t : Token) : Option Layout := do
  let l ← (l.closeBlocks fun _ => true).dropKey
  return { l.push t (l.place.skip 3) with keyAllowed := false }

/-- Read a directive. -/
def takeDirective (l : Layout) : Option Layout := do
  let l ← (l.closeBlocks fun _ => true).dropKey
  let (d, p) ← l.place.takeDirective
  return { l.push (.directive d) p with keyAllowed := false }

/-- Read a mark that may be the first of a block collection. -/
def takeBlockMark (l : Layout) (start t : Token) : Option Layout :=
  if l.flow || l.keyAllowed then
    some ((l.openBlock start l.place.column l.tokens.size).push t (l.place.skip 1))
  else none

/-- Read the mark of an item. -/
def takeItem (l : Layout) : Option Layout := do
  let l ← (← l.takeBlockMark .blockSequence .item).dropKey
  return { l with keyAllowed := true }

/-- Read the mark of a key. -/
def takeKey (l : Layout) : Option Layout := do
  let l ← (← l.takeBlockMark .blockMapping .key).dropKey
  return { l with keyAllowed := !l.flow }

/-- Read the colon before a value.  The possible key is one. -/
def takeValue (l : Layout) : Option Layout :=
  match l.key with
  | some k =>
    let l := { l with tokens := l.tokens.insertIdxIfInBounds k.before .key, key := none }
    let l := l.openBlock .blockMapping k.start.column k.before
    some { l.push .value (l.place.skip 1) with keyAllowed := false }
  | none => do
    return { ← l.takeBlockMark .blockMapping .value with keyAllowed := !l.flow }

/-- Read unquoted text. -/
def takePlain (l : Layout) : Option Layout := do
  let (text, isBroken, p) ← l.place.takePlain l.flow l.least
  return { ← l.pushStart (.scalar true text) p with keyAllowed := isBroken }

/-- Read quoted text. -/
def takeQuoted (l : Layout) : Option Layout := do
  let (text, p) ← l.place.takeQuoted
  l.pushStart (.scalar false text) p

/-- Read a block of lines, which is no key. -/
def takeBlock (l : Layout) : Option Layout :=
  if l.flow then none
  else do
    let (text, p) ← l.place.takeBlock l.least
    return { (← l.dropKey).push (.scalar false text) p with keyAllowed := true }

/-- Read the token at a place with content. -/
def takeToken (l : Layout) : Option Layout :=
  match l.place.text with
  | [] => none
  | c :: rest =>
    if c = '%' && l.place.column = 0 then l.takeDirective
    else if l.place.isMarker '-' then l.takeMarker .documentStart
    else if l.place.isMarker '.' then l.takeMarker .documentEnd
    else
      match c with
      | '[' => l.openFlow .flowSequence
      | '\x7b' => l.openFlow .flowMapping
      | ']' => l.closeFlow .flowSequenceEnd
      | '\x7d' => l.closeFlow .flowMappingEnd
      | ',' => l.takeSeparator
      | '-' => if atGap rest then l.takeItem else l.takePlain
      | '?' => if l.flow || atGap rest then l.takeKey else l.takePlain
      | ':' => if l.flow || atGap rest then l.takeValue else l.takePlain
      | '*' => do
        let (name, p) ← (l.place.skip 1).takeName
        l.pushStart (.alias name) p
      | '&' => do
        let (name, p) ← (l.place.skip 1).takeName
        l.pushStart (.anchor name) p
      | '!' => do
        let (tag, p) ← l.place.takeTag l.flow
        l.pushStart (.tag tag) p
      | '\'' | '"' => l.takeQuoted
      | '|' | '>' => l.takeBlock
      | _ => if ['\t', '%', '@', '\x60'].contains c then none else l.takePlain

/-- Go on to the next content. -/
def seek (l : Layout) : Layout :=
  let p := l.place
  let (keyAllowed, next) := Yaml.seek l.flow l.keyAllowed false p.index p.line p.column p.text
  { l with place := next, keyAllowed := keyAllowed }

/-- Read all tokens. -/
def takeTokens (fuel : Nat) (l : Layout) : Option (Array Token) :=
  match fuel with
  | 0 => none
  | fuel + 1 => do
    let l ← l.seek.dropPastKeys
    if l.place.text.isEmpty then return (← (l.closeBlocks fun _ => true).dropKey).tokens
    else takeTokens fuel (← (l.closeBlocks (l.place.column < ·)).takeToken)

end Layout

/-- The tokens of a text. -/
def tokens? (text : List Char) : Option (List Token) :=
  ((Layout.mk ⟨text, 0, 0, 0⟩ #[] [] none [] true).takeTokens (text.length + 1)).map Array.toList

end Lineage.Yaml
