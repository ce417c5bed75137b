/-
  Lineage.Grammar.Matching

  Matching a pattern against text.

  A rule that matches leaves a tree, with the trees of the rules inside it; inside a
  sealed rule, and in a look-ahead, nothing leaves a tree.

  The matcher also keeps the rules that failed furthest into the text (`Failures`).
  A rule that fails where the furthest failure is replaces what the rules inside it
  reported there, unless they reported exactly one.  Nothing is reported from inside
  a sealed rule or a negative look-ahead.

  Every call hands on less `fuel` than it was given; `fuelFor` gives enough for a
  text.
-/
import Lineage.Grammar.Pattern

namespace Lineage

/-- A place in a text: characters before it, its line and column, counted from one, and the
text from there on.  Only a line feed ends a line. -/
structure Cursor where
  offset : Nat
  line : Nat
  column : Nat
  rest : List Char

namespace Cursor

/-- The start of a text. -/
def start (text : List Char) : Cursor := ⟨0, 1, 1, text⟩

/-- The cursor after its next character. -/
def advance (c : Cursor) : Cursor :=
  match c.rest with
  | [] => c
  | '\n' :: rest => ⟨c.offset + 1, c.line + 1, 1, rest⟩
  | _ :: rest => ⟨c.offset + 1, c.line, c.column + 1, rest⟩

/-- The cursor after its next `n` characters. -/
def skip : Nat → Cursor → Cursor
  | 0, c => c
  | n + 1, c => skip n c.advance

end Cursor

/-- What a rule matched: where, which characters, and the trees of the rules inside. -/
inductive Tree (ρ : Type) where
  | node (rule : ρ) (line column : Nat) (text : List Char) (children : List (Tree ρ))

namespace Tree

variable {ρ : Type}

def rule : Tree ρ → ρ
  | .node r _ _ _ _ => r

def line : Tree ρ → Nat
  | .node _ line _ _ _ => line

def column : Tree ρ → Nat
  | .node _ _ column _ _ => column

/-- The characters that the rule matched. -/
def text : Tree ρ → String
  | .node _ _ _ text _ => String.ofList text

def children : Tree ρ → List (Tree ρ)
  | .node _ _ _ _ children => children

end Tree

/-- The rules that failed furthest into the text, and where that is. -/
structure Failures (ρ : Type) where
  offset : Nat := 0
  line : Nat := 1
  column : Nat := 1
  rules : List ρ := []

namespace Failures

variable {ρ : Type}

/-- How many rules have failed at an offset. -/
def countAt (f : Failures ρ) (offset : Nat) : Nat :=
  if offset = f.offset then f.rules.length else 0

/-- Report that `r` failed at `c`, where `before` rules had failed when it was entered. -/
def report (f : Failures ρ) (r : ρ) (c : Cursor) (before : Nat) : Failures ρ :=
  if f.countAt c.offset = before + 1 then f
  else if f.offset < c.offset then ⟨c.offset, c.line, c.column, [r]⟩
  else if c.offset = f.offset then { f with rules := f.rules.take before ++ [r] }
  else f

end Failures

/-- What surrounds a pattern that is being tried. -/
structure Setting where
  spacing : Spacing := .loose
  /-- Inside any look-ahead. -/
  probing : Bool := false
  /-- Inside a negative look-ahead. -/
  negated : Bool := false

namespace Setting

/-- Whether rules report their failures. -/
def reports (s : Setting) : Bool := s.spacing != .sealed && !s.negated

/-- Whether rules leave trees. -/
def plants (s : Setting) : Bool := s.spacing != .sealed && !s.probing

end Setting

/-- Whether two characters are equal up to ASCII case. -/
def sameLetter (a b : Char) : Bool := a.toLower == b.toLower

/-- Whether a text starts with a word, up to ASCII case. -/
def startsWithWord : List Char → List Char → Bool
  | [], _ => true
  | _ :: _, [] => false
  | a :: word, b :: text => sameLetter a b && startsWithWord word text

/-- The cursor after a match and the trees it left. -/
abbrev Match (ρ : Type) := Cursor × List (Tree ρ)

/-- The match of a pattern that leaves no trees. -/
def Match.bare {ρ : Type} (c : Cursor) : Match ρ := (c, [])

namespace Grammar

variable {ρ : Type} (g : Grammar ρ)

mutual

/-- Try a pattern at a cursor. -/
def run (fuel : Nat) (s : Setting) (p : Pattern ρ) (c : Cursor) (f : Failures ρ) :
    Failures ρ × Option (Match ρ) :=
  match fuel with
  | 0 => (f, none)
  | fuel + 1 =>
    match p with
    | .text chars => (f, if chars.isPrefixOf c.rest then some (.bare (c.skip chars.length)) else none)
    | .word chars => (f, if startsWithWord chars c.rest then some (.bare (c.skip chars.length)) else none)
    | .char accepts =>
      match c.rest with
      | ch :: _ => (f, if accepts ch then some (.bare c.advance) else none)
      | [] => (f, none)
    | .finish => (f, if c.rest.isEmpty then some (.bare c) else none)
    | .seq first second =>
      match run fuel s first c f with
      | (f, none) => (f, none)
      | (f, some (c, trees)) =>
        match run fuel s second (blanks fuel s c) f with
        | (f, none) => (f, none)
        | (f, some (c, more)) => (f, some (c, trees ++ more))
    | .alt first second =>
      match run fuel s first c f with
      | (f, none) => run fuel s second c f
      | found => found
    | .opt p =>
      match run fuel s p c f with
      | (f, none) => (f, some (.bare c))
      | found => found
    | .star p =>
      match run fuel s p c f with
      | (f, none) => (f, some (.bare c))
      | (f, some (c, trees)) =>
        let (f, c, trees) := loop fuel s p c f trees.reverse
        (f, some (c, trees.reverse))
    | .ahead p =>
      match run fuel { s with probing := true } p c f with
      | (f, none) => (f, none)
      | (f, some _) => (f, some (.bare c))
    | .notAhead p =>
      match run fuel { s with probing := true, negated := true } p c f with
      | (f, none) => (f, some (.bare c))
      | (f, some _) => (f, none)
    | .rule r =>
      let spacing := if s.spacing = .sealed then .sealed else (g.rule r).spacing.getD s.spacing
      let inner := { s with spacing }
      let before := f.countAt c.offset
      match run fuel inner (g.rule r).body c f with
      | (f, none) => (if s.reports then f.report r c before else f, none)
      | (f, some (after, trees)) =>
        if s.plants then
          let text := c.rest.take (after.offset - c.offset)
          (f, some (after, [.node r c.line c.column text trees]))
        else (f, some (after, trees))

/-- Repeat a pattern as long as it matches; `done` holds the trees so far, last first. -/
def loop (fuel : Nat) (s : Setting) (p : Pattern ρ) (c : Cursor) (f : Failures ρ)
    (done : List (Tree ρ)) : Failures ρ × Match ρ :=
  match fuel with
  | 0 => (f, c, done)
  | fuel + 1 =>
    match run fuel s p (blanks fuel s c) f with
    | (f, none) => (f, c, done)
    | (f, some (c, trees)) => loop fuel s p c f (trees.reverse ++ done)

/-- The cursor after the blanks, where blanks are skipped. -/
def blanks (fuel : Nat) (s : Setting) (c : Cursor) : Cursor :=
  match fuel with
  | 0 => c
  | fuel + 1 =>
    if s.spacing = .loose then
      (loop fuel { spacing := .sealed } g.blank c {} []).2.1
    else c

end

/-- Without fuel nothing matches. -/
theorem run_zero (s : Setting) (p : Pattern ρ) (c : Cursor) (f : Failures ρ) :
    g.run 0 s p c f = (f, none) := by
  rw [run]

/-- Enough fuel for a text: no chain of calls without progress is longer than the factor. -/
def fuelFor (text : List Char) : Nat :=
  200 * (text.length + 2)

/-- Match a rule against a text from its start. -/
def parse (r : ρ) (text : List Char) : Failures ρ × Option (Match ρ) :=
  g.run (fuelFor text) {} (.rule r) (.start text) {}

end Grammar

end Lineage
