/-
  Lineage.Grammar.Pattern

  Parsing expression grammars as data.

  A pattern is tried at some place of a text and either fails or consumes a front
  part of what is left; the first alternative that matches is taken for good.
  Between the parts of a sequence and between repetitions blanks are skipped, except
  inside `tight` and `sealed` rules.
-/
namespace Lineage

/-- What a rule can be made of. -/
inductive Pattern (ρ : Type) where
  /-- Exactly these characters. -/
  | text (s : List Char)
  /-- These characters, in any ASCII case. -/
  | word (s : List Char)
  /-- One character of a class. -/
  | char (accepts : Char → Bool)
  /-- The end of the text. -/
  | finish
  | seq (first second : Pattern ρ)
  | alt (first second : Pattern ρ)
  | opt (p : Pattern ρ)
  | star (p : Pattern ρ)
  /-- Matches where `p` would, without consuming. -/
  | ahead (p : Pattern ρ)
  /-- Matches where `p` would not. -/
  | notAhead (p : Pattern ρ)
  | rule (r : ρ)

namespace Pattern

variable {ρ : Type}

/-- One or more times. -/
def plus (p : Pattern ρ) : Pattern ρ := .seq p (.star p)

/-- All of the patterns, one after the other. -/
def all : List (Pattern ρ) → Pattern ρ
  | [] => .text []
  | [p] => p
  | p :: rest => .seq p (all rest)

/-- The first of the patterns that matches. -/
def any : List (Pattern ρ) → Pattern ρ
  | [] => .notAhead (.text [])
  | [p] => p
  | p :: rest => .alt p (any rest)

end Pattern

/-- How blanks and trees are treated. -/
inductive Spacing where
  /-- Blanks are skipped between parts. -/
  | loose
  /-- No blanks are skipped. -/
  | tight
  /-- No blanks are skipped, and the rules inside leave neither trees nor failures. -/
  | sealed
  deriving DecidableEq

/-- The body of a rule.  Without a spacing of its own it takes that of its surroundings. -/
structure RuleBody (ρ : Type) where
  spacing : Option Spacing
  body : Pattern ρ

/-- The bodies of the rules, and one blank. -/
structure Grammar (ρ : Type) where
  rule : ρ → RuleBody ρ
  blank : Pattern ρ

end Lineage
