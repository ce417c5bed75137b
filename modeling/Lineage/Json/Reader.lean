/-
  Lineage.Json.Reader

  Reading JSON text.

  The reader keeps every field of an object, repeated ones too: what a repeated name
  means is decided by whoever decodes the value.  Nothing but blanks may follow the
  value.
-/
import Lineage.Json.Number

namespace Lineage.Json

/-- The blanks of JSON. -/
def isBlank (c : Char) : Bool :=
  c == ' ' || c == '\n' || c == '\t' || c == '\r'

def skipBlanks (text : List Char) : List Char :=
  text.dropWhile isBlank

/-- The value of a hexadecimal digit. -/
def hexValue? (c : Char) : Option Nat :=
  if '0' ≤ c && c ≤ '9' then some (c.toNat - '0'.toNat)
  else if 'a' ≤ c && c ≤ 'f' then some (c.toNat - 'a'.toNat + 10)
  else if 'A' ≤ c && c ≤ 'F' then some (c.toNat - 'A'.toNat + 10)
  else none

/-- The code of four hexadecimal digits at the front of a text. -/
def takeHex : List Char → Option (Nat × List Char)
  | a :: b :: c :: d :: rest => do
    let a ← hexValue? a
    let b ← hexValue? b
    let c ← hexValue? c
    let d ← hexValue? d
    return (((a * 16 + b) * 16 + c) * 16 + d, rest)
  | _ => none

/-- The character of a one-letter escape. -/
def shortEscape? (c : Char) : Option Char :=
  [('"', '"'), ('\\', '\\'), ('/', '/'), ('b', '\x08'), ('f', '\x0c'), ('n', '\n'), ('r', '\r'),
    ('t', '\t')].lookup c

def isLead (code : Nat) : Bool := 0xD800 ≤ code && code < 0xDC00
def isTrail (code : Nat) : Bool := 0xDC00 ≤ code && code < 0xE000

/-- The second half of a surrogate pair at the front of a text. -/
def takeTrail : List Char → Option (Nat × List Char)
  | '\\' :: 'u' :: rest =>
    match takeHex rest with
    | some (code, after) => if isTrail code then some (code, after) else none
    | none => none
  | _ => none

/-- The characters up to the closing quote, last first, and whether all of them exist. -/
def takeString (fuel : Nat) (done : List Char) (usable : Bool) (text : List Char) :
    Option (List Char × Bool × List Char) :=
  match fuel with
  | 0 => none
  | fuel + 1 =>
    match text with
    | [] => none
    | '"' :: rest => some (done, usable, rest)
    | '\\' :: 'u' :: rest =>
      match takeHex rest with
      | none => none
      | some (code, after) =>
        if isLead code then
          match takeTrail after with
          | some (trail, after) =>
            let full := (code - 0xD800) * 0x400 + (trail - 0xDC00) + 0x10000
            takeString fuel (Char.ofNat full :: done) usable after
          | none => takeString fuel done false after
        else if isTrail code then takeString fuel done false after
        else takeString fuel (Char.ofNat code :: done) usable after
    | '\\' :: c :: rest =>
      match shortEscape? c with
      | some c => takeString fuel (c :: done) usable rest
      | none => none
    | c :: rest => if c.toNat < 0x20 then none else takeString fuel (c :: done) usable rest

/-- The text between quotes at the front, the first quote having been read. -/
def takeQuoted (text : List Char) : Option (Option String × List Char) :=
  match takeString (text.length + 1) [] true text with
  | some (done, usable, rest) =>
    some (if usable then some (String.ofList done.reverse) else none, rest)
  | none => none

/-- The rest of a text after a fixed word. -/
def takeWord (word : List Char) (text : List Char) : Option (List Char) :=
  if word.isPrefixOf text then some (text.drop word.length) else none

mutual

/-- The value at the front of a text, after blanks. -/
def takeValue (fuel : Nat) (text : List Char) : Option (Json × List Char) :=
  match fuel with
  | 0 => none
  | fuel + 1 =>
    match skipBlanks text with
    | [] => none
    | '"' :: rest =>
      match takeQuoted rest with
      | some (some s, rest) => some (.str s, rest)
      | some (none, rest) => some (.unusable, rest)
      | none => none
    | '[' :: rest =>
      match skipBlanks rest with
      | ']' :: rest => some (.arr [], rest)
      | rest => takeItems fuel [] rest
    | '\x7b' :: rest =>
      match skipBlanks rest with
      | '\x7d' :: rest => some (.obj [], rest)
      | rest => takeFields fuel [] true rest
    | 't' :: rest => (takeWord ['r', 'u', 'e'] rest).map (.bool true, ·)
    | 'f' :: rest => (takeWord ['a', 'l', 's', 'e'] rest).map (.bool false, ·)
    | 'n' :: rest => (takeWord ['u', 'l', 'l'] rest).map (.null, ·)
    | rest => takeNumber rest

/-- The elements up to a closing bracket; `done` holds those already read, last first. -/
def takeItems (fuel : Nat) (done : List Json) (text : List Char) : Option (Json × List Char) :=
  match fuel with
  | 0 => none
  | fuel + 1 =>
    match takeValue fuel text with
    | none => none
    | some (item, rest) =>
      match skipBlanks rest with
      | ']' :: rest => some (.arr (item :: done).reverse, rest)
      | ',' :: rest => takeItems fuel (item :: done) rest
      | _ => none

/-- The fields up to a closing brace; an object with a name that denotes nothing is unusable. -/
def takeFields (fuel : Nat) (done : List (String × Json)) (usable : Bool) (text : List Char) :
    Option (Json × List Char) :=
  match fuel with
  | 0 => none
  | fuel + 1 =>
    match skipBlanks text with
    | '"' :: rest =>
      match takeQuoted rest with
      | none => none
      | some (name, rest) =>
        match skipBlanks rest with
        | ':' :: rest =>
          match takeValue fuel rest with
          | none => none
          | some (value, rest) =>
            let usable := usable && name.isSome
            let done := (name.getD "", value) :: done
            match skipBlanks rest with
            | '\x7d' :: rest => some (if usable then .obj done.reverse else .unusable, rest)
            | ',' :: rest => takeFields fuel done usable rest
            | _ => none
        | _ => none
    | _ => none

end

/-- Read a text that holds one value. -/
def read (text : String) : Option Json :=
  let chars := text.toList
  match takeValue (2 * chars.length + 2) chars with
  | some (value, rest) => if skipBlanks rest = [] then some value else none
  | none => none

end Lineage.Json
