/-
  Lineage.Yaml.Tag

  Names of nodes, tags, and the directives in front of a document.

  A tag is written as a handle and a suffix.  The handle stands for a text that the
  suffix is added to, so that what a tag is depends on the directives.  Suffixes may
  escape octets, which need not make up characters.
-/
import Lineage.Yaml.Place
import Lineage.Yaml.Scalar

namespace Lineage.Yaml

/-- Text as octets, of which none is zero. -/
abbrev Octets := List UInt8

/-- The octets of a text up to a zero. -/
def octets (s : String) : Octets :=
  s.toUTF8.toList.takeWhile (· != 0)

/-- The characters of names. -/
def isNameChar (c : Char) : Bool :=
  c.isAlphanum || c == '_' || c == '-'

/-! ## Names -/

/-- The name at a place, which a gap or a mark has to follow. -/
def Place.takeName (p : Place) : Option (String × Place) :=
  let (name, p) := p.takeWhile isNameChar
  let marks := ['?', ':', ',', ']', '\x7d', '%', '@', '\x60']
  if !name.isEmpty && (atGap p.text || p.text.head?.any marks.contains) then
    some (String.ofList name, p)
  else none

/-! ## Tags -/

/-- What a tag says about its node. -/
inductive Tag where
  | boolean
  | integer
  | float
  | null
  /-- A tag of its own kind, with its name. -/
  | variant (name : String)
  /-- A tag that only says that a scalar is a text. -/
  | other
  deriving DecidableEq

/-- What a tag is; none if it is one of its own kind whose name is no text. -/
def Tag.ofOctets? (tag : Octets) : Option Tag :=
  match tag with
  | 0x21 :: name =>
    (String.fromUTF8? (ByteArray.mk (if name.isEmpty then tag else name).toArray)).map .variant
  | _ =>
    if tag = octets "tag:yaml.org,2002:bool" then some .boolean
    else if tag = octets "tag:yaml.org,2002:int" then some .integer
    else if tag = octets "tag:yaml.org,2002:float" then some .float
    else if tag = octets "tag:yaml.org,2002:null" then some .null
    else some .other

/-- A tag as it is written. -/
structure WrittenTag where
  handle : String
  suffix : Octets
  deriving DecidableEq

/-- What handles stand for. -/
abbrev Handles := List (String × Octets)

/-- The handles that need no directive. -/
def defaultHandles : Handles :=
  [("!", octets "!"), ("!!", octets "tag:yaml.org,2002:")]

/-- All of a tag, if its handle stands for anything.  Without a handle it is the suffix. -/
def WrittenTag.octets? (t : WrittenTag) (handles : Handles) : Option Octets :=
  if t.handle = "" then some t.suffix else (handles.lookup t.handle).map (· ++ t.suffix)

/-- The handle at a place: a name after an exclamation mark and mostly before another one. -/
def Place.takeHandle (p : Place) : Option (String × Place) :=
  match p.text with
  | '!' :: _ =>
    let (name, p) := (p.skip 1).takeWhile isNameChar
    if p.text.head? == some '!' then some (String.ofList ('!' :: name ++ ['!']), p.skip 1)
    else some (String.ofList ('!' :: name), p)
  | _ => none

/-- The characters of suffixes; `verbatim` ones may hold some marks too. -/
def isSuffixChar (verbatim : Bool) (c : Char) : Bool :=
  isNameChar c || ";/?:@&=+$.!~*'()".toList.contains c || (verbatim && [',', '[', ']'].contains c)

/-- How many octets of a character are missing after one more, of which `missing` were before it.
When none was, another character begins. -/
def leftAfter? (missing octet : Nat) : Option Nat :=
  if missing = 0 then
    if octet < 0x80 then some 0
    else if octet < 0xC0 then none
    else if octet < 0xE0 then some 1
    else if octet < 0xF0 then some 2
    else if octet < 0xF8 then some 3
    else none
  else if 0x80 ≤ octet && octet < 0xC0 then some (missing - 1)
  else none

/-- The octets of the suffix at the front of a text, last first, and how many characters it has
there.  A character of several octets is escaped whole. -/
def suffixOctets? (verbatim : Bool) (missing : Nat) (done : Octets) (taken : Nat) :
    List Char → Option (Octets × Nat)
  | '%' :: a :: b :: rest =>
    match natural? 16 [a, b] with
    | none => none
    | some octet =>
      match leftAfter? missing octet with
      | none => none
      | some missing => suffixOctets? verbatim missing (octet.toUInt8 :: done) (taken + 3) rest
  | '%' :: _ => none
  | [] => if missing = 0 then some (done, taken) else none
  | c :: rest =>
    if missing ≠ 0 then none
    else if isSuffixChar verbatim c then
      suffixOctets? verbatim missing (c.toNat.toUInt8 :: done) (taken + 1) rest
    else some (done, taken)

/-- The suffix at a place, up to a zero, and whether anything is written there. -/
def Place.takeSuffix (verbatim : Bool) (p : Place) : Option (Octets × Bool × Place) := do
  let (done, taken) ← suffixOctets? verbatim 0 [] 0 p.text
  return (done.reverse.takeWhile (· != 0), taken != 0, p.skip taken)

/-- The tag at a place, before its end. -/
def Place.takeTagBody (p : Place) : Option (WrittenTag × Place) := do
  match p.text with
  | '!' :: '<' :: _ =>
    let (suffix, written, p) ← (p.skip 2).takeSuffix true
    if written && p.text.head? == some '>' then return (⟨"", suffix⟩, p.skip 1) else none
  | _ =>
    let (handle, p) ← p.takeHandle
    let (suffix, written, p) ← p.takeSuffix false
    if handle.length > 1 && handle.endsWith "!" then
      if written then return (⟨handle, suffix⟩, p) else none
    else
      let suffix := (octets handle).drop 1 ++ suffix
      if suffix.isEmpty then return (⟨"", octets "!"⟩, p) else return (⟨"!", suffix⟩, p)

/-- The tag at a place.  A gap has to follow, or between brackets a comma. -/
def Place.takeTag (flow : Bool) (p : Place) : Option (WrittenTag × Place) := do
  let (tag, p) ← p.takeTagBody
  if atGap p.text || (flow && p.text.head? == some ',') then return (tag, p) else none

/-! ## Directives -/

inductive Directive where
  | version (major minor : Nat)
  | handle (name : String) (text : Octets)
  deriving DecidableEq

/-- The numeral of nine digits at most at a place. -/
def Place.takeNumeral (p : Place) : Option (Nat × Place) := do
  let (digits, p) := p.takeWhile Char.isDigit
  if digits.length ≤ 9 then return (← natural? 10 digits, p) else none

/-- The directive at a place, with the rest of its line. -/
def Place.takeDirective (p : Place) : Option (Directive × Place) := do
  let (name, p) := (p.skip 1).takeWhile isNameChar
  if !atGap p.text then none
  let skipBlanks (p : Place) : Place := (p.takeWhile isBlank).2
  let p := skipBlanks p
  match String.ofList name with
  | "YAML" =>
    let (major, p) ← p.takeNumeral
    if p.text.head? != some '.' then none
    let (minor, p) ← (p.skip 1).takeNumeral
    return (.version major minor, ← p.endLine?)
  | "TAG" =>
    let (handle, p) ← p.takeHandle
    if !(handle.endsWith "!" && p.text.head?.any isBlank) then none
    let (text, written, p) ← (skipBlanks p).takeSuffix true
    if !(written && atGap p.text) then none
    return (.handle handle text, ← p.endLine?)
  | _ => none

end Lineage.Yaml
