/-
  Lineage.Proofs.Script.TreeShapes

  What the trees of the grammar of scripts look like.

  Everything that is said here of a tree follows from its derivation: which rules the
  trees inside it have (`Rule.Holds`), that a string literal can be unquoted
  (`string_unquotes`), that the other literals are spelled as their readers expect.
-/
import Lineage.Proofs.Grammar.Derivations
import Lineage.Proofs.Script.Atoms
import Lineage.Proofs.Script.Tokens

namespace Lineage.Script

open Grammar

/-! ## What is inside a tree -/

/-- Rules in the order of a run: operators before an operand, the operand, and operators after it.
`open_` says that an operand is still to come. -/
def Rule.InRun : Bool → List Rule → Prop
  | true, [] => False
  | true, r :: rs => r ∈ Rules.prefixOps ∧ InRun true rs ∨ r ∈ Rules.primaries ∧ InRun false rs
  | false, [] => True
  | false, r :: rs => r ∈ Rules.postfixOps ∧ InRun false rs ∨ r ∈ Rules.infixOps ∧ InRun true rs

/-- The rules of the trees inside the tree of a rule. -/
def Rule.Holds : Rule → List Rule → Prop
  | .program, rs => rs = [.statements, .endOfInput]
  | .statements, rs => ∀ r ∈ rs, r = .statement
  | .statement, rs => ∃ r, rs = [r] ∧ r ∈ [Rule.ifStatement, .forRangeStatement, .forInStatement,
      .whileStatement, .tryExceptStatement, .breakStatement, .continueStatement, .returnStatement,
      .letStatement, .exprStatement]
  | .ifStatement, rs => ∃ clauses last, rs = .expr :: .statements :: (clauses ++ last) ∧
      (∀ r ∈ clauses, r = .elseifClause) ∧ (last = [] ∨ last = [.elseClause])
  | .elseifClause, rs | .whileStatement, rs => rs = [.expr, .statements]
  | .elseClause, rs => rs = [.statements]
  | .forRangeStatement, rs => rs = [.ident, .expr, .expr, .statements]
  | .forInStatement, rs => rs = [.ident, .expr, .statements]
  | .tryExceptStatement, rs => ∃ clauses, rs = .statements :: clauses ∧ ∀ r ∈ clauses, r = .exceptClause
  | .exceptClause, rs => rs = [.exceptCodes, .statements] ∨ rs = [.exceptVar, .exceptCodes, .statements]
  | .exceptCodes, rs => rs = [.anycode] ∨ rs = [.exprlist]
  | .returnStatement, rs | .exprStatement, rs => rs = [] ∨ rs = [.expr]
  | .letStatement, rs | .scatterOptional, rs => rs = [.ident] ∨ rs = [.ident, .expr]
  | .expr, rs => InRun true rs
  | .scatterAssign, rs => ∀ r ∈ rs, r ∈ [Rule.scatterOptional, .scatterRest, .scatterTarget]
  | .exceptVar, rs | .scatterRest, rs | .scatterTarget, rs | .prop, rs | .sysprop, rs => rs = [.ident]
  | .indexRange, rs | .condExpr, rs => rs = [.expr, .expr]
  | .indexSingle, rs | .propExpr, rs | .assign, rs | .parenExpr, rs | .argument, rs => rs = [.expr]
  | .verbCall, rs | .builtinCall, rs => rs = [.ident, .arglist]
  | .verbExprCall, rs => rs = [.expr, .arglist]
  | .list, rs | .arglist, rs => rs = [] ∨ rs = [.exprlist]
  | .map, rs => (∀ r ∈ rs, r = .expr) ∧ rs.length % 2 = 0
  | .exprlist, rs => ∀ r ∈ rs, r = .argument
  | .atom, rs => ∃ r, rs = [r] ∧ r ∈ [Rule.float, .integer, .string, .object, .errorCode, .boolean,
      .nullValue, .ident]
  | _, rs => rs = []

section

open Rules

attribute [local simp] Rules.body plain keyed sealed keyword Pattern.all Pattern.any lit word oneOf
  commaSeparated operand Rules.expr Rules.ident Rules.statements Pattern.Yields Pattern.plus

variable {p : Pattern Rule} {rs rest : List Rule} {rules : List Rule} {r : Rule}

theorem mem_of_yields_oneOf (h : (oneOf (r :: rules)).Yields rs) : ∃ r', rs = [r'] ∧ r' ∈ r :: rules := by
  induction rules generalizing r with
  | nil => exact ⟨r, h, List.mem_singleton_self r⟩
  | cons r' rules ih =>
    rcases h with h | h
    · exact ⟨r, h, List.mem_cons_self⟩
    · obtain ⟨r'', hrs, hr⟩ := ih h
      exact ⟨r'', hrs, List.mem_cons_of_mem _ hr⟩

/-- What repeats single rules. -/
theorem forall_mem_flatten {P : Rule → Prop} {parts : List (List Rule)}
    (h : ∀ part ∈ parts, ∃ r, part = [r] ∧ P r) : ∀ r ∈ parts.flatten, P r := by
  intro r hr
  obtain ⟨part, hpart, hr⟩ := List.mem_flatten.mp hr
  obtain ⟨r', rfl, hP⟩ := h part hpart
  obtain rfl := List.mem_singleton.mp hr
  exact hP

/-- What repeats pairs. -/
theorem pairs_flatten {parts : List (List Rule)} (h : ∀ part ∈ parts, part = [r, r]) :
    (∀ r' ∈ parts.flatten, r' = r) ∧ parts.flatten.length % 2 = 0 := by
  induction parts with
  | nil => exact ⟨nofun, rfl⟩
  | cons part parts ih =>
    obtain ⟨rfl, hparts⟩ := List.forall_mem_cons.mp h
    obtain ⟨hall, heven⟩ := ih hparts
    constructor
    · exact List.forall_mem_cons.mpr ⟨rfl, List.forall_mem_cons.mpr ⟨rfl, hall⟩⟩
    · simp only [List.flatten_cons, List.length_append, List.length_cons, List.length_nil]
      omega

/-- Operators that are repeated come before what one of them may come before. -/
theorem inRun_repeats {b : Bool} {parts : List (List Rule)}
    (hstep : ∀ r' ∈ r :: rules, ∀ rest, Rule.InRun b rest → Rule.InRun b (r' :: rest))
    (h : ∀ part ∈ parts, (oneOf (r :: rules)).Yields part) (hrest : Rule.InRun b rest) :
    Rule.InRun b (parts.flatten ++ rest) := by
  induction parts with
  | nil => exact hrest
  | cons part parts ih =>
    obtain ⟨hpart, hparts⟩ := List.forall_mem_cons.mp h
    obtain ⟨r', rfl, hr⟩ := mem_of_yields_oneOf hpart
    exact hstep r' hr _ (ih hparts)

theorem inRun_operand (h : operand.Yields rs) (hrest : Rule.InRun false rest) :
    Rule.InRun true (rs ++ rest) := by
  obtain ⟨_, _, rfl, ⟨befores, rfl, hbefores⟩, _, _, rfl, hprimary, afters, rfl, hafters⟩ := h
  obtain ⟨r, rfl, hr⟩ := mem_of_yields_oneOf hprimary
  rw [List.append_assoc, List.append_assoc]
  refine inRun_repeats (fun r hr rest h => Or.inl ⟨hr, h⟩) hbefores (Or.inr ⟨hr, ?_⟩)
  exact inRun_repeats (fun r hr rest h => Or.inl ⟨hr, h⟩) hafters hrest

theorem inRun_expr (h : (Rules.body .expr).body.Yields rs) : Rule.InRun true rs := by
  obtain ⟨first, _, rfl, hfirst, parts, rfl, hparts⟩ := h
  refine inRun_operand hfirst ?_
  clear hfirst
  induction parts with
  | nil => trivial
  | cons part parts ih =>
    obtain ⟨⟨_, _, rfl, hbetween, hoperand⟩, hmore⟩ := List.forall_mem_cons.mp hparts
    obtain ⟨r, rfl, hr⟩ := mem_of_yields_oneOf hbetween
    rw [List.flatten_cons, List.append_assoc, List.singleton_append]
    exact Or.inr ⟨hr, inRun_operand hoperand (ih hmore)⟩

/-- What a rule yields is what its tree holds. -/
theorem holds_of_yields (h : (Rules.body r).body.Yields rs)
    (hr : (Rules.body r).spacing ≠ some .sealed) : r.Holds rs := by
  have hsingle {r : Rule} (parts : List (List Rule)) (h : ∀ part ∈ parts, part = [r]) :
      ∀ r' ∈ parts.flatten, r' = r :=
    forall_mem_flatten fun part hpart => ⟨r, h part hpart, rfl⟩
  cases r with
  | expr => exact inRun_expr h
  | statement | atom => exact mem_of_yields_oneOf h
  | statements =>
    simp at h
    obtain ⟨parts, rfl, hparts⟩ := h
    exact hsingle parts hparts
  | ifStatement =>
    simp at h
    obtain ⟨last, parts, rfl, hparts, hlast⟩ := h
    exact ⟨parts.flatten, last, rfl, hsingle parts hparts, hlast⟩
  | tryExceptStatement =>
    simp at h
    obtain ⟨parts, rfl, hparts⟩ := h
    exact ⟨_, rfl, List.forall_mem_cons.mpr ⟨rfl, hsingle parts hparts⟩⟩
  | exceptClause =>
    simp at h
    obtain ⟨front, rfl, rfl | rfl⟩ := h
    · exact .inl rfl
    · exact .inr rfl
  | letStatement | scatterOptional =>
    simp at h
    obtain ⟨back, rfl, rfl | rfl⟩ := h
    · exact .inl rfl
    · exact .inr rfl
  | scatterAssign =>
    obtain ⟨_, _, rfl, rfl, _, _, rfl, ⟨_, _, rfl, hfirst, parts, rfl, hparts⟩, _, _, rfl, rfl, _, _,
      rfl, rfl, rfl⟩ := h
    obtain ⟨r, rfl, hr⟩ := mem_of_yields_oneOf hfirst
    simp only [List.nil_append, List.append_nil, List.singleton_append]
    refine List.forall_mem_cons.mpr ⟨hr, forall_mem_flatten fun part hpart => ?_⟩
    obtain ⟨_, _, rfl, rfl, htarget⟩ := hparts part hpart
    exact mem_of_yields_oneOf htarget
  | exprlist =>
    simp at h
    obtain ⟨parts, rfl, hparts⟩ := h
    exact List.forall_mem_cons.mpr ⟨rfl, hsingle parts hparts⟩
  | map =>
    simp at h
    rcases h with rfl | ⟨parts, rfl, hparts⟩
    · exact ⟨nofun, rfl⟩
    · have hpairs : ∀ part ∈ [.expr, .expr] :: parts, part = [Rule.expr, .expr] :=
        List.forall_mem_cons.mpr ⟨rfl, hparts⟩
      exact pairs_flatten hpairs
  | _ => first
    | exact absurd rfl hr
    | simpa [Rule.Holds] using h

end

end Lineage.Script

namespace Lineage.Tree.Grown

open Script Grammar

variable {r : Rule} {line column : Nat} {text : List Char} {ts : List (Tree Rule)}

/-- The rules of the trees inside a tree. -/
theorem holds (h : Tree.Grown grammar (.node r line column text ts)) : r.Holds (ts.map Tree.rule) := by
  by_cases hr : (Rules.body r).spacing = some .sealed
  · obtain ⟨rfl, -⟩ := h.spells hr
    cases r <;> first
      | rfl
      | cases hr
  · exact holds_of_yields (h.yields hr) hr

end Lineage.Tree.Grown

namespace Lineage.Script

/-- A parse is a derivation, and the other way round. -/
theorem parse_iff_derives {r : Rule} {text : List Char} {c : Cursor} {trees : List (Tree Rule)} :
    (grammar.parse r text).2 = some (c, trees) ↔
      Grammar.Derives grammar {} (.once (.rule r)) (.start text) c trees := by
  have hdepth := depth_le r
  have henough :
      Grammar.enough measure ((Pattern.rule r).depth measure) (.start text) ≤ Grammar.fuelFor text := by
    simp only [Grammar.enough, Pattern.depth, Grammar.fuelFor, Cursor.start, measure] at hdepth ⊢
    omega
  constructor
  · exact fun h => (Grammar.run_derives grammar_orderly (Grammar.fuelFor text)).1 rfl henough (Prod.ext rfl h)
  · exact fun h => parse_of_gives h.takes

/-- A text in the grammar leaves one tree, which is grown. -/
theorem grown_of_parse {r : Rule} {text : List Char} {c : Cursor} {trees : List (Tree Rule)}
    (h : (grammar.parse r text).2 = some (c, trees)) :
    ∃ t, trees = [t] ∧ t.rule = r ∧ t.Grown grammar := by
  have hderives := parse_iff_derives.mp h
  obtain ⟨t, rest, rfl, ht, hrest⟩ := List.map_eq_cons_iff.mp (hderives.yields rfl)
  obtain rfl := List.map_eq_nil_iff.mp hrest
  exact ⟨t, rfl, ht, hderives.grown t List.mem_cons_self⟩

end Lineage.Script

namespace Lineage.Script

open Grammar

/-- A run of at least one digit. -/
def Digits (chars : List Char) : Prop := chars ≠ [] ∧ ∀ c ∈ chars, '0' ≤ c ∧ c ≤ '9'

section

variable {accepts : Char → Bool} {chars : List Char}

theorem spells_star_char (h : (.star (.char accepts) : Pattern Rule).Spells chars) :
    ∀ c ∈ chars, accepts c = true := by
  obtain ⟨parts, rfl, hparts⟩ := h
  intro c hc
  obtain ⟨part, hpart, hc⟩ := List.mem_flatten.mp hc
  obtain ⟨c', rfl, hc'⟩ := hparts part hpart
  obtain rfl := List.mem_singleton.mp hc
  exact hc'

theorem spells_plus_char (h : (.plus (.char accepts) : Pattern Rule).Spells chars) :
    chars ≠ [] ∧ ∀ c ∈ chars, accepts c = true := by
  obtain ⟨_, rest, rfl, ⟨c, rfl, hc⟩, hrest⟩ := h
  exact ⟨List.cons_ne_nil _ _, List.forall_mem_cons.mpr ⟨hc, spells_star_char hrest⟩⟩

theorem spells_digits (h : Rules.digits.Spells chars) : Digits chars := by
  obtain ⟨hne, hall⟩ := spells_plus_char h
  refine ⟨hne, fun c hc => ?_⟩
  simpa [isDigit] using hall c hc

end

variable {line column : Nat} {text : List Char} {ts : List (Tree Rule)}

theorem integer_spelled (h : Tree.Grown grammar (.node .integer line column text ts)) : Digits text :=
  spells_digits (h.spells rfl).2

theorem object_spelled (h : Tree.Grown grammar (.node .object line column text ts)) :
    ∃ digits, Digits digits ∧ (text = '#' :: digits ∨ text = '#' :: '-' :: digits) := by
  obtain ⟨_, _, rfl, rfl, sign, digits, rfl, hsign, hdigits⟩ := (h.spells rfl).2
  refine ⟨digits, spells_digits hdigits, ?_⟩
  rcases hsign with rfl | rfl
  · exact .inl rfl
  · exact .inr rfl

theorem errorCode_spelled (h : Tree.Grown grammar (.node .errorCode line column text ts)) :
    ∃ name, text = 'E' :: '_' :: name ∧ name ≠ [] ∧ ∀ c ∈ name, isCodeChar c = true := by
  obtain ⟨_, _, rfl, rfl, name, _, rfl, hname, rfl⟩ := (h.spells rfl).2
  obtain ⟨hne, hall⟩ := spells_plus_char hname
  exact ⟨name, by rw [List.append_nil]; rfl, hne, hall⟩

theorem ident_spelled (h : Tree.Grown grammar (.node .ident line column text ts)) :
    ∀ c ∈ text, isIdentChar c = true := by
  obtain ⟨_, _, rfl, rfl, _, rest, rfl, ⟨c, rfl, hc⟩, hrest⟩ := (h.spells rfl).2
  refine List.forall_mem_cons.mpr ⟨?_, spells_star_char hrest⟩
  rw [isIdentChar, hc, Bool.true_or]

/-- An exponent: its letter, a sign or none, digits. -/
theorem exponent_spelled {chars : List Char} (h : Rules.exponent.Spells chars) :
    ∃ e sign digits, (e = 'e' ∨ e = 'E') ∧ (sign = [] ∨ sign = ['+'] ∨ sign = ['-']) ∧ Digits digits ∧
      chars = e :: (sign ++ digits) := by
  obtain ⟨_, _, rfl, ⟨hlength, hword⟩, sign, digits, rfl, hsign, hdigits⟩ := h
  obtain ⟨e, rfl⟩ := List.length_eq_one_iff.mp hlength
  have he : e.toLower = 'e' := by
    have hsame : (sameLetter 'e' e && true) = true := hword
    simp only [Bool.and_true, sameLetter, beq_iff_eq] at hsame
    exact hsame.symm
  refine ⟨e, sign, digits, eq_of_toLower_e he, ?_, spells_digits hdigits, rfl⟩
  rcases hsign with rfl | rfl | rfl
  · exact .inl rfl
  · exact .inr (.inl rfl)
  · exact .inr (.inr rfl)

theorem float_spelled (h : Tree.Grown grammar (.node .float line column text ts)) :
    ∃ whole exponent, Digits whole ∧ (exponent = [] ∨ Rules.exponent.Spells exponent) ∧
      (text = whole ++ exponent ∨
        ∃ places, Digits places ∧ text = whole ++ '.' :: (places ++ exponent)) := by
  rcases (h.spells rfl).2 with ⟨whole, _, rfl, hwhole, _, _, rfl, rfl, places, exponent, rfl, hplaces,
    hexponent⟩ | ⟨whole, exponent, rfl, hwhole, hexponent⟩
  · exact ⟨whole, exponent, spells_digits hwhole, hexponent, .inr ⟨places, spells_digits hplaces, rfl⟩⟩
  · exact ⟨whole, exponent, spells_digits hwhole, .inr hexponent, .inl rfl⟩

/-! ## Floating-point numbers -/

theorem digit?_of_digit {c : Char} (h : '0' ≤ c ∧ c ≤ '9') :
    Numeral.digit? c = some (c.toNat - '0'.toNat) := by
  rw [Numeral.digit?, if_pos]
  simpa using h

/-- A run of digits is taken as a whole. -/
theorem digitRun_digits {digits rest : List Char} (h : ∀ c ∈ digits, '0' ≤ c ∧ c ≤ '9')
    (hrest : ∀ c, rest.head? = some c → Numeral.digit? c = none) (value : Nat) :
    ∃ v, Decimal.digitRun value (digits ++ rest) = (v, rest) := by
  induction digits generalizing value with
  | nil =>
    cases rest with
    | nil => exact ⟨value, rfl⟩
    | cons c rest => exact ⟨value, by rw [List.nil_append, Decimal.digitRun, hrest c rfl]⟩
  | cons c digits ih =>
    obtain ⟨hc, hdigits⟩ := List.forall_mem_cons.mp h
    rw [List.cons_append, Decimal.digitRun, digit?_of_digit hc]
    exact ih hdigits _

theorem sign_ne_digit {c : Char} (h : '0' ≤ c ∧ c ≤ '9') : c ≠ '-' ∧ c ≠ '+' := by
  constructor
  · rintro rfl
    exact absurd h (by decide)
  · rintro rfl
    exact absurd h (by decide)

theorem readExponent_isSome {chars : List Char} (h : Rules.exponent.Spells chars) :
    (Decimal.readExponent chars).isSome = true := by
  obtain ⟨e, sign, digits, he, hsign, ⟨hne, hdigits⟩, rfl⟩ := exponent_spelled h
  have hend : ∀ c, ([] : List Char).head? = some c → Numeral.digit? c = none := nofun
  obtain ⟨v, hrun⟩ := digitRun_digits hdigits hend 0
  rw [List.append_nil] at hrun
  rcases hsign with rfl | rfl | rfl
  · obtain ⟨d, digits, rfl⟩ := List.exists_cons_of_ne_nil hne
    obtain ⟨hminus, hplus⟩ := sign_ne_digit (hdigits d List.mem_cons_self)
    simp [Decimal.readExponent, he, hminus, hplus, hrun]
  · simp [Decimal.readExponent, he, hrun, hne]
  · simp [Decimal.readExponent, he, hrun, hne]

/-- What comes after the digits of a number. -/
theorem head_exponent {chars : List Char} (h : chars = [] ∨ Rules.exponent.Spells chars) :
    (Decimal.readExponent chars).isSome = true ∧
      ∀ c, chars.head? = some c → Numeral.digit? c = none ∧ c ≠ '.' := by
  rcases h with rfl | h
  · exact ⟨rfl, nofun⟩
  · refine ⟨readExponent_isSome h, ?_⟩
    obtain ⟨e, sign, digits, he, -, -, rfl⟩ := exponent_spelled h
    rintro c hc
    cases hc
    rcases he with rfl | rfl <;> decide

/-- A float literal is always a number. -/
theorem float_reads (h : Tree.Grown grammar (.node .float line column text ts)) :
    (Decimal.read text).isSome = true := by
  obtain ⟨whole, exponent, ⟨hne, hwhole⟩, hexponent, htext⟩ := float_spelled h
  obtain ⟨hread, hhead⟩ := head_exponent hexponent
  have hlength : 0 < whole.length := List.length_pos_iff.mpr hne
  have hunsigned : (Decimal.readUnsigned text).isSome = true := by
    rcases htext with rfl | ⟨places, ⟨-, hplaces⟩, rfl⟩
    · obtain ⟨v, hrun⟩ := digitRun_digits hwhole (fun c hc => (hhead c hc).1) 0
      have hdot : ∀ rest, exponent = '.' :: rest → False := by
        rintro rest rfl
        exact (hhead '.' rfl).2 rfl
      simp only [Decimal.readUnsigned, hrun]
      rw [if_neg (by simp only [List.length_append]; omega), Option.isSome_map]
      exact hread
    · have hpoint : ∀ c, ('.' :: (places ++ exponent)).head? = some c → Numeral.digit? c = none := by
        rintro c ⟨⟩
        decide
      obtain ⟨v, hrun⟩ := digitRun_digits hwhole hpoint 0
      obtain ⟨v', hrun'⟩ := digitRun_digits hplaces (fun c hc => (hhead c hc).1) v
      simp only [Decimal.readUnsigned, hrun, hrun']
      rw [if_neg (by simp only [List.length_append]; omega), Option.isSome_map]
      exact hread
  obtain ⟨c, whole, rfl⟩ := List.exists_cons_of_ne_nil hne
  obtain ⟨hminus, hplus⟩ := sign_ne_digit (hwhole c List.mem_cons_self)
  obtain ⟨rest, rfl⟩ : ∃ rest, text = c :: rest := by
    rcases htext with rfl | ⟨places, -, rfl⟩
    · exact ⟨_, rfl⟩
    · exact ⟨_, rfl⟩
  simp only [Decimal.read]
  split
  · rename_i heq
    exact absurd (List.cons.inj heq).1 hminus
  · rename_i heq
    exact absurd (List.cons.inj heq).1 hplus
  · split
    · rfl
    · split
      · rfl
      · rw [Option.isSome_map]
        exact hunsigned

/-! ## Strings -/

/-- A character of a string, or an escaped one. -/
def stringItem : Pattern Rule :=
  .any [.all [Rules.lit "\\", Rules.anyChar], .all [.notAhead (Rules.lit "\""), Rules.anyChar]]

section

variable {s : Setting} {c c' : Cursor}

/-- A backslash takes the next character along, if there is one. -/
theorem stringItem_takes (h : Derives grammar s (.once stringItem) c c' ts) (hs : s.spacing = .sealed) :
    (∃ ch tail, c.rest = '\\' :: ch :: tail ∧ c' = c.skip 2) ∨
      ∃ ch tail, c.rest = ch :: tail ∧ c' = c.skip 1 ∧ ch ≠ '"' ∧ (ch = '\\' → tail = []) := by
  cases h with
  | left h =>
    obtain ⟨_, tail, hrest, rfl, _, _, rfl, rfl, ch, rfl, -⟩ := h.spells hs
    exact .inl ⟨ch, tail, hrest, rfl⟩
  | right hmiss h =>
    obtain ⟨_, tail, hrest, rfl, _, _, rfl, rfl, ch, rfl, -⟩ := h.spells hs
    refine .inr ⟨ch, tail, hrest, rfl, ?_, ?_⟩
    · rintro rfl
      cases h with
      | seq h _ _ =>
        cases h with
        | notAhead hquote => exact hquote.not_takes (text_takes hrest)
    · rintro rfl
      cases tail with
      | nil => rfl
      | cons next tail =>
        have hnext : (c.skip 1).rest = next :: tail :=
          Cursor.rest_skip_append (show c.rest = ['\\'] ++ next :: tail from hrest)
        exact absurd (seq_takes (text_takes hrest) (skips_of_not_loose (by rw [hs]; decide))
          (char_takes hnext rfl)) hmiss.not_takes

/-- What is between two cursors can be unquoted, unless the text ends there. -/
def Unquotes (c c' : Cursor) : Prop :=
  ∃ body tail, c.rest = body ++ tail ∧ c' = c.skip body.length ∧
    (tail ≠ [] → ∃ s, Text.unquoteBody (body ++ ['"']) = .ok s)

theorem Unquotes.refl (c : Cursor) : Unquotes c c := ⟨[], c.rest, rfl, rfl, fun _ => ⟨[], rfl⟩⟩

theorem Unquotes.cons {c₁ : Cursor} (h : Derives grammar s (.once stringItem) c c₁ ts)
    (hs : s.spacing = .sealed) (hmore : Unquotes c₁ c') : Unquotes c c' := by
  obtain ⟨body, tail, hrest₁, rfl, hbody⟩ := hmore
  rcases stringItem_takes h hs with ⟨ch, after, hrest, rfl⟩ | ⟨ch, after, hrest, rfl, hquote, hslash⟩
  · have hafter : (c.skip 2).rest = after :=
      Cursor.rest_skip_append (show c.rest = ['\\', ch] ++ after from hrest)
    obtain rfl := hafter.symm.trans hrest₁
    refine ⟨'\\' :: ch :: body, tail, hrest, (Cursor.skip_append c ['\\', ch] body).symm, ?_⟩
    intro htail
    obtain ⟨s, hs⟩ := hbody htail
    exact ⟨Text.unescape ch :: s, by simp only [List.cons_append, Text.unquoteBody, hs]; rfl⟩
  · have hafter : (c.skip 1).rest = after :=
      Cursor.rest_skip_append (show c.rest = [ch] ++ after from hrest)
    obtain rfl := hafter.symm.trans hrest₁
    refine ⟨ch :: body, tail, hrest, (Cursor.skip_append c [ch] body).symm, fun htail => ?_⟩
    obtain ⟨s, hs⟩ := hbody htail
    have hplain : ch ≠ '\\' := fun heq => htail (List.append_eq_nil_iff.mp (hslash heq)).2
    refine ⟨ch :: s, ?_⟩
    rw [List.cons_append, Text.unquoteBody_plain hquote hplain, hs]
    rfl

/-- What is between the quotes can be unquoted. -/
theorem unquotes_of_derives {goal : Goal Rule} (h : Derives grammar s goal c c' ts)
    (hs : s.spacing = .sealed) (hgoal : goal = .once (.star stringItem) ∨ goal = .more stringItem) :
    Unquotes c c' := by
  induction h with
  | star_none | stop => exact .refl _
  | star_some h _ _ ih =>
    rcases hgoal with hgoal | hgoal <;> cases hgoal
    exact .cons h hs (ih hs (.inr rfl))
  | again hskip h _ _ ih =>
    rcases hgoal with hgoal | hgoal <;> cases hgoal
    rw [hskip.eq_of_sealed hs] at h
    exact .cons h hs (ih hs (.inr rfl))
  | _ => rcases hgoal with hgoal | hgoal <;> cases hgoal

end

/-- A string literal can always be unquoted. -/
theorem string_unquotes (h : Tree.Grown grammar (.node .string line column text ts)) :
    ∃ s, Text.unquote text = .ok s := by
  cases h with
  | @node s _ c c' _ _ h _ =>
    have hsealed : (grammar.inside s .string).spacing = .sealed := by
      simp only [inside]
      split <;> rfl
    cases h with
    | seq hopen hskip h =>
      cases h with
      | seq hbody hskip' hclose =>
        obtain rfl := hskip.eq_of_sealed hsealed
        obtain rfl := hskip'.eq_of_sealed hsealed
        obtain ⟨_, inner, hrest, rfl, rfl⟩ := hopen.spells hsealed
        obtain ⟨body, tail, hinner, rfl, hunquotes⟩ := unquotes_of_derives hbody hsealed (.inl rfl)
        obtain ⟨_, after, htail, rfl, rfl⟩ := hclose.spells hsealed
        rw [Cursor.rest_skip_append hinner] at htail
        rw [Cursor.rest_skip_append hrest] at hinner
        subst htail
        obtain ⟨s, hs⟩ := hunquotes (List.cons_ne_nil _ _)
        have htext : c.rest = ('"' :: (body ++ ['"'])) ++ after := by
          rw [hrest, hinner, List.cons_append, List.append_assoc]
          rfl
        have hstop : ((c.skip "\"".toList.length).skip body.length).skip "\"".toList.length =
            c.skip ('"' :: (body ++ ['"'])).length := by
          rw [← Cursor.skip_append, ← Cursor.skip_append]
          rfl
        exact ⟨s, by rw [hstop, Cursor.take_offset_skip htext]; exact hs⟩

end Lineage.Script
