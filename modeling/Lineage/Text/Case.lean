/-
  Lineage.Text.Case

  Upper and lower case of whole texts, as the Unicode standard maps them without
  regard to language.  The one rule that looks at the neighbours is that of the
  capital sigma, which becomes a final sigma at the end of a word.
-/
import Lineage.Text.CaseTable

namespace Lineage.Text

/-- The image of a code point under a list of runs. -/
def CaseRun.map? (runs : List CaseRun) (code : Nat) : Option Nat :=
  (runs.find? fun r => r.first ≤ code && code ≤ r.last && (code - r.first) % r.stride == 0).map
    fun r => ((code : Int) + r.shift).toNat

/-- A mapping by a table of exceptions and runs; what neither holds stays as it is. -/
def mapByTables (special : List (Nat × List Nat)) (runs : List CaseRun) (c : Char) : List Char :=
  match special.lookup c.toNat with
  | some codes => codes.map Char.ofNat
  | none =>
    match CaseRun.map? runs c.toNat with
    | some code => [Char.ofNat code]
    | none => [c]

/-- The upper-case form of a character. -/
def upperChar (c : Char) : List Char :=
  if c.toNat < 0x80 then [c.toUpper] else mapByTables upperSpecial upperRuns c

/-- The lower-case form of a character, away from the end of a word. -/
def lowerChar (c : Char) : List Char :=
  if c.toNat < 0x80 then [c.toLower] else mapByTables lowerSpecial lowerRuns c

/-- The upper-case form of a text. -/
def upper (s : List Char) : List Char :=
  s.flatMap upperChar

/-- Whether a code point lies in one of the ranges. -/
def inRanges (ranges : List (Nat × Nat)) (c : Char) : Bool :=
  ranges.any fun r => r.1 ≤ c.toNat && c.toNat ≤ r.2

/-- Whether the first character that is not skipped over is a letter with case. -/
def startsCased (s : List Char) : Bool :=
  match s.dropWhile (inRanges caseIgnorableRanges) with
  | c :: _ => inRanges casedRanges c
  | [] => false

/-- The lower-case form of the rest of a text, `before` being what precedes it, last first. -/
def lowerAfter (before : List Char) : List Char → List Char
  | [] => []
  | c :: rest =>
    let image :=
      if c = 'Σ' then (if startsCased before && !startsCased rest then ['ς'] else ['σ'])
      else lowerChar c
    image ++ lowerAfter (c :: before) rest

/-- The lower-case form of a text. -/
def lower (s : List Char) : List Char :=
  lowerAfter [] s

end Lineage.Text
