/-
  Lineage.Timestamp

  Moments in time, and their RFC 3339 form.

  A moment is a count of seconds since 1970-01-01 in UTC and of nanoseconds within
  the second.  A leap second is the second before it with more than a thousand
  million nanoseconds.  Moments are written in UTC with `Z` and as few of 0, 3, 6 or
  9 fraction digits as hold them exactly.

  Reading is more liberal: blanks may stand between the parts, the date and the time
  may be separated by `T`, `t` or a blank, and the offset may be `Z`, `z`, `UTC` or a
  signed number of hours and minutes.
-/
import Lineage.Numeral
import Lineage.Text.Blank

namespace Lineage

structure Timestamp where
  seconds : Int
  nanos : Nat
  deriving DecidableEq

/-- A day of the calendar. -/
structure CivilDate where
  year : Int
  month : Nat
  day : Nat
  deriving DecidableEq

namespace CivilDate

def isLeapYear (year : Int) : Bool :=
  year % 4 = 0 && (year % 100 ≠ 0 || year % 400 = 0)

def daysInMonth (year : Int) (month : Nat) : Nat :=
  if month = 2 then (if isLeapYear year then 29 else 28)
  else if month = 4 || month = 6 || month = 9 || month = 11 then 30 else 31

/-- Whether the day exists, within the years that are kept. -/
def isValid (d : CivilDate) : Bool :=
  -262143 ≤ d.year && d.year ≤ 262142 && 1 ≤ d.month && d.month ≤ 12 && 1 ≤ d.day
    && d.day ≤ daysInMonth d.year d.month

/-- Days since 1970-01-01.  The year is taken to start in March, so that the leap day is its
last, and eras of 400 years are alike. -/
def toDays (d : CivilDate) : Int :=
  let year := if d.month ≤ 2 then d.year - 1 else d.year
  let era := year / 400
  let yearOfEra := year % 400
  let dayOfYear : Int := (153 * ((d.month + 9) % 12 : Nat) + 2) / 5 + d.day - 1
  era * 146097 + (yearOfEra * 365 + yearOfEra / 4 - yearOfEra / 100 + dayOfYear) - 719468

/-- The day that is so many days after 1970-01-01. -/
def ofDays (days : Int) : CivilDate :=
  let shifted := days + 719468
  let era := shifted / 146097
  let dayOfEra := shifted % 146097
  let yearOfEra := (dayOfEra - dayOfEra / 1460 + dayOfEra / 36524 - dayOfEra / 146096) / 365
  let dayOfYear := dayOfEra - (365 * yearOfEra + yearOfEra / 4 - yearOfEra / 100)
  let monthFromMarch := (5 * dayOfYear + 2) / 153
  let day := dayOfYear - (153 * monthFromMarch + 2) / 5 + 1
  let month := if monthFromMarch < 10 then monthFromMarch + 3 else monthFromMarch - 9
  let year := yearOfEra + era * 400
  ⟨if month ≤ 2 then year + 1 else year, month.toNat, day.toNat⟩

end CivilDate

namespace Timestamp

/-- The start of 1970. -/
def epoch : Timestamp := ⟨0, 0⟩

/-- A number padded with zeros on the left. -/
def padded (width n : Nat) : List Char :=
  let digits := Nat.toDigits 10 n
  List.replicate (width - digits.length) '0' ++ digits

/-- A year: four digits, or a sign and at least four. -/
def writeYear (year : Int) : List Char :=
  if 0 ≤ year ∧ year ≤ 9999 then padded 4 year.toNat
  else (if year < 0 then '-' else '+') :: padded 4 year.natAbs

/-- The fraction of a second in as few groups of three digits as hold it. -/
def writeFraction (nanos : Nat) : List Char :=
  if nanos = 0 then []
  else if nanos % 1000000 = 0 then '.' :: padded 3 (nanos / 1000000)
  else if nanos % 1000 = 0 then '.' :: padded 6 (nanos / 1000)
  else '.' :: padded 9 nanos

/-- The RFC 3339 form in UTC. -/
def write (t : Timestamp) : String :=
  let date := CivilDate.ofDays (t.seconds / 86400)
  let second := (t.seconds % 86400).toNat
  let leap := t.nanos / 1000000000
  String.ofList <|
    writeYear date.year ++ '-' :: padded 2 date.month ++ '-' :: padded 2 date.day
      ++ 'T' :: padded 2 (second / 3600) ++ ':' :: padded 2 (second / 60 % 60)
      ++ ':' :: padded 2 (second % 60 + leap) ++ writeFraction (t.nanos % 1000000000) ++ ['Z']

/-! ## Reading -/

/-- A natural number of 1 to `limit` digits at the front of a text, and how many there were. -/
def takeNat (limit : Nat) (text : List Char) : Option (Nat × Nat × List Char) :=
  let digits := (text.take limit).takeWhile fun c => (Numeral.digit? c).isSome
  if digits = [] then none
  else
    let value := digits.foldl (fun acc c => acc * 10 + (Numeral.digit? c).getD 0) 0
    some (value, digits.length, text.drop digits.length)

/-- A number of at most two digits, after blanks. -/
def takePair (text : List Char) : Option (Nat × List Char) :=
  (takeNat 2 (Text.trimStart text)).map fun (n, _, rest) => (n, rest)

/-- A fixed character, after blanks. -/
def takeMark (mark : Char) (text : List Char) : Option (List Char) :=
  match Text.trimStart text with
  | c :: rest => if c = mark then some rest else none
  | [] => none

/-- A year: up to four digits, or a sign and any number of digits. -/
def takeYear (text : List Char) : Option (Int × List Char) :=
  match Text.trimStart text with
  | '-' :: rest => (takeNat rest.length rest).map fun (n, _, after) => (-n, after)
  | '+' :: rest => (takeNat rest.length rest).map fun (n, _, after) => (n, after)
  | rest => (takeNat 4 rest).map fun (n, _, after) => (n, after)

/-- The nanoseconds of an optional fraction; digits past the ninth are dropped. -/
def takeFraction : List Char → Option (Nat × List Char)
  | '.' :: rest =>
    (takeNat 9 rest).map fun (n, count, after) =>
      (n * Nat.pow 10 (9 - count), after.dropWhile fun c => (Numeral.digit? c).isSome)
  | rest => some (0, rest)

/-- Two digits at the front of a text. -/
def twoDigits : List Char → Option (Nat × List Char)
  | a :: b :: rest => do
    let a ← Numeral.digit? a
    let b ← Numeral.digit? b
    return (a * 10 + b, rest)
  | _ => none

/-- The offset from UTC in seconds. -/
def takeOffset (text : List Char) : Option (Int × List Char) :=
  match Text.trimStart text with
  | [] => none
  | c :: rest =>
    if (String.ofList ((c :: rest).take 3 |>.map Char.toLower)) = "utc" then some (0, rest.drop 2)
    else if c = 'Z' ∨ c = 'z' then some (0, rest)
    else if c = '+' ∨ c = '-' ∨ c = '−' then do
      let (hours, rest) ← twoDigits rest
      let (minutes, rest) ← twoDigits (rest.dropWhile fun c => c = ':' || Text.isBlank c)
      if 60 ≤ minutes ∨ 24 ≤ hours then none
      let offset : Int := hours * 3600 + minutes * 60
      return (if c = '+' then offset else -offset, rest)
    else none

/-- What stands between the date and the time. -/
def takeSeparator : List Char → Option (List Char)
  | c :: rest => if c = 'T' ∨ c = 't' ∨ c = ' ' then some rest else none
  | [] => none

/-- The moment with these parts, if there is one: neither the date nor, with the offset, the moment
itself may lie outside the years that are kept. -/
def ofParts (date : CivilDate) (hour minute second nanos : Nat) (offset : Int) : Option Timestamp :=
  if !date.isValid ∨ 24 ≤ hour ∨ 60 ≤ minute ∨ 60 < second then none
  else
    let leap := second / 60
    let seconds := date.toDays * 86400 + hour * 3600 + minute * 60 + (second - leap : Nat) - offset
    if (CivilDate.ofDays (seconds / 86400)).isValid then some ⟨seconds, nanos + leap * 1000000000⟩
    else none

/-- Read a moment that fills the whole text, blanks at the end apart. -/
def read (source : String) : Option Timestamp := do
  let (year, text) ← takeYear source.toList
  let (month, text) ← takePair (← takeMark '-' text)
  let (day, text) ← takePair (← takeMark '-' text)
  let (hour, text) ← takePair (← takeSeparator text)
  let (minute, text) ← takePair (← takeMark ':' text)
  let (second, text) ← takePair (← takeMark ':' text)
  let (nanos, text) ← takeFraction text
  let (offset, text) ← takeOffset text
  if Text.trimStart text = [] then ofParts ⟨year, month, day⟩ hour minute second nanos offset
  else none

end Timestamp

end Lineage
