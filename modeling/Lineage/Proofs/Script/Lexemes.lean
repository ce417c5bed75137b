/-
  Lineage.Proofs.Script.Lexemes

  Single tokens of printed scripts.

  Which rule takes a token is decided by its first character, but for words, which may be
  identifiers, constants or names of error codes, and for the marks that start with
  another mark: two dots, two equals signs and an arrow.
-/
import Mathlib.Data.List.TakeWhile
import Lineage.Proofs.Script.Literals
import Lineage.Proofs.Script.TokenMatching

namespace Lineage.Script

open Grammar

variable {p : Pattern Rule} {r : Rule} {s : Setting} {c : Cursor} {t : String} {ts : List String}
  {tail : List Char}

/-! ## First characters -/

/-- The characters that words start with. -/
def letters : List Char := "ABCDEFGHIJKLMNOPQRSTUVWXYZabcdefghijklmnopqrstuvwxyz_".toList

theorem mem_letters {ch : Char} (h : startsIdent ch = true) : ch ∈ letters := by
  have hcodes : ∀ n < 0x80, startsIdent (Char.ofNat n) = true → Char.ofNat n ∈ letters := by decide
  have hident : isIdentChar ch = true := by rw [isIdentChar, h]; rfl
  have := hcodes ch.toNat (identChar_lt hident)
  rw [Char.ofNat_toNat] at this
  exact this h

/-- The characters that an expression may start with if it starts with no word. -/
def exprMarks : List Char :=
  ['(', '\x7b', '[', '-', '!', '$', '"', '#', '0', '1', '2', '3', '4', '5', '6', '7', '8', '9']

/-- What is refused at each of some characters is refused at a token that starts with one. -/
theorem Refuses.of_head {chars : List Char} (h : ∃ ch ∈ chars, t.toList.head? = some ch) (n : Nat)
    (hp : chars.all (fun ch => refuses grammar false (some ch) 8 Rules.blank &&
      refuses grammar true (some ch) n p) = true) : Refuses p (t :: ts) := by
  rintro c ⟨-, tail, hrest, -⟩
  obtain ⟨ch, hch, hhead⟩ := h
  obtain ⟨more, hmore⟩ := List.head?_eq_some_iff.mp hhead
  have hstart : c.rest = ch :: (more ++ tail) := by
    rw [hrest, hmore]
    rfl
  exact fails_at hstart n (List.all_eq_true.mp hp ch hch)

/-! ## Identifiers -/

/-- One tree with the text of a token. -/
def Spelt (r : Rule) (t : String) (ts : List (Tree Rule)) : Prop :=
  ∃ line column, ts = [.node r line column t.toList []]

theorem isIdentifier_iff : isIdentifier t = true ↔ IsWord t.toList ∧ Others Rules.keywords t.toList := by
  have hkeywords : ∀ kw ∈ Rules.keywords, kw.toList.all isIdentChar = true ∧
      kw.toList.map Char.toLower = kw.toList := by decide
  rw [isIdentifier, Bool.and_eq_true, Bool.and_eq_true, List.all_eq_true, List.all_eq_true]
  constructor
  · rintro ⟨⟨hstart, hchars⟩, hkw⟩
    rw [Option.any_eq_true] at hstart
    exact ⟨⟨hstart, hchars⟩, fun kw hmem =>
      ⟨(hkeywords kw hmem).1, (hkeywords kw hmem).2, bne_iff_ne.mp (hkw kw hmem)⟩⟩
  · rintro ⟨⟨hstart, hchars⟩, hkw⟩
    exact ⟨⟨by rwa [Option.any_eq_true], hchars⟩, fun kw hmem => bne_iff_ne.mpr (hkw kw hmem).2.2⟩

theorem isIdentifier_of_isVariable (h : isVariable t = true) : isIdentifier t = true := by
  rw [isVariable, Bool.and_eq_true, Bool.and_eq_true] at h
  exact h.1.1

theorem IsWord.head (h : IsWord t.toList) : ∃ ch ∈ letters, t.toList.head? = some ch := by
  obtain ⟨ch, hhead, hch⟩ := h.starts
  exact ⟨ch, mem_letters hch, hhead⟩

/-- A token that only one sealed rule takes leaves the tree of that rule. -/
theorem Eats.sealed (hr : (Rules.body r).spacing = some .sealed)
    (h : ∀ {c tail}, c.rest = t.toList ++ tail → Loosened tail →
      Takes grammar tightly (Rules.body r).body c (c.skip t.toList.length) []) :
    Eats (.rule r) (t :: ts) ts (Spelt r t) := by
  have hinside : grammar.inside {} r = tightly := by
    simp only [inside, show (grammar.rule r).spacing = some .sealed from hr]
    rfl
  refine .of_takes fun hrest htail => ⟨_, rule_takes rfl hrest ?_, _, _, rfl⟩
  rw [hinside]
  exact h hrest htail

theorem Eats.ident (h : isIdentifier t = true) : Eats (.rule .ident) (t :: ts) ts (Spelt .ident t) := by
  obtain ⟨hword, hothers⟩ := isIdentifier_iff.mp h
  exact .sealed rfl fun hrest htail => ident_takes (by decide) hrest hword hothers htail.delimited

/-- What starts with no letter is refused at words. -/
theorem Refuses.at_word (h : IsWord t.toList) (n : Nat)
    (hp : letters.all (fun ch => refuses grammar false (some ch) 8 Rules.blank &&
      refuses grammar true (some ch) n p) = true) : Refuses p (t :: ts) :=
  .of_head h.head n hp

/-- The rules that take one of some words. -/
theorem word_rule_fails (words : List String) (hr : Rules.body r =
      ⟨some .sealed, .all [.any (words.map Rules.word), Rules.wordEnd]⟩)
    (h : IsWord t.toList) (hothers : Others words t.toList) (hrest : c.rest = t.toList ++ tail)
    (htail : Delimited tail) : Fails grammar s (.rule r) c := by
  refine rule_fails ?_
  show Fails grammar (grammar.inside s r) (Rules.body r).body c
  rw [hr]
  refine words_fail ?_ hrest h hothers htail
  show (if s.spacing = .sealed then Spacing.sealed else (Rules.body r).spacing.getD s.spacing) ≠ _
  rw [hr]
  split <;> exact nofun

theorem Others.of_keywords {words : List String} (h : Others Rules.keywords t.toList)
    (hwords : words ⊆ Rules.keywords) : Others words t.toList :=
  fun w hw => h w (hwords hw)

/-- A keyword is refused as an identifier. -/
theorem Refuses.keyword (h : t ∈ Rules.keywords) (n : Nat)
    (hp : declines (· == .ident) t.toList n p = true) : Refuses p (t :: ts) := by
  rintro c ⟨hcalm, tail, hrest, htail, -⟩
  refine (fails_and_stays hcalm hrest htail (fun r hr s => ?_) n).1 hp
  rw [eq_of_beq hr]
  refine rule_fails (ident_fails ?_ h hrest htail.delimited)
  show (if s.spacing = .sealed then Spacing.sealed else some .sealed |>.getD s.spacing) ≠ _
  split <;> exact nofun

/-! ## Error codes -/

/-- The characters of a code that a word starts with end where the word goes on with others. -/
theorem codeChars_stop (word : List Char) (htail : Loosened tail) :
    ∀ ch, (word.dropWhile isCodeChar ++ tail).head? = some ch → isCodeChar ch = false := by
  intro ch hch
  cases hback : word.dropWhile isCodeChar with
  | nil =>
    rw [hback] at hch
    have hident := htail.delimited.no_ident ch hch
    simp only [isIdentChar, startsIdent, isCodeChar, Bool.or_eq_false_iff] at hident ⊢
    exact ⟨⟨hident.1.1.1, hident.2⟩, hident.1.2⟩
  | cons x back =>
    rw [hback] at hch
    cases hch
    simpa [hback] using List.head_dropWhile_not isCodeChar (l := word) (by simp [hback])

/-- An identifier that has not the shape of an error code is not taken for one. -/
theorem errorCode_fails (h : IsWord t.toList) (hcode : isCodeName t = false) :
    Refuses (.rule .errorCode) (t :: ts) := by
  rintro c ⟨-, tail, hrest, htail, -⟩
  refine rule_fails ?_
  by_cases hstart : ['E', '_'] <+: t.toList
  swap
  · refine seq_fails (text_fails_of_no_start ?_)
    rw [hrest]
    refine isPrefixOf_eq_false htail ⟨by decide, Bool.eq_false_iff.mpr fun hprefix => hstart ?_⟩
    exact List.isPrefixOf_iff_prefix.mp hprefix
  obtain ⟨word, hword⟩ := hstart
  have hparts : c.rest = ['E', '_'] ++ (word ++ tail) := by rw [hrest, ← hword, List.append_assoc]
  have hrest₁ := Cursor.rest_skip_append hparts
  refine seq_fails_after (text_takes hparts) (skips_of_not_loose (by decide)) ?_
  -- Capitals, digits and underscores are read as far as there are any.
  have hsplit : (c.skip ['E', '_'].length).rest =
      word.takeWhile isCodeChar ++ (word.dropWhile isCodeChar ++ tail) := by
    rw [hrest₁, ← List.append_assoc, List.takeWhile_append_dropWhile]
  have hstop := codeChars_stop word htail
  by_cases hfront : word.takeWhile isCodeChar = []
  · rw [hfront, List.nil_append] at hsplit
    exact seq_fails (seq_fails (char_fails (by
      rw [show (c.skip "E_".toList.length).rest = _ from hsplit]
      exact hstop)))
  have hplus : Takes grammar tightly (.plus (.char isCodeChar)) (c.skip ['E', '_'].length) _ [] :=
    plus_chars (by decide) hsplit hfront (fun ch hch => List.mem_takeWhile_imp hch) hstop
  refine seq_fails_after hplus (skips_of_not_loose (by decide)) ?_
  have hnext := Cursor.rest_skip_append hsplit
  cases hback : word.dropWhile isCodeChar with
  | nil =>
    -- There are no others: then the word has the shape of a code.
    have hall : word.takeWhile isCodeChar = word := by
      rw [← List.append_nil (word.takeWhile _), ← hback, List.takeWhile_append_dropWhile]
    rw [hall] at hfront
    obtain ⟨ch, more, rfl⟩ := List.exists_cons_of_ne_nil hfront
    have htrue : isCodeName t = true := by
      rw [isCodeName, ← hword]
      exact List.all_eq_true.mpr fun a ha => List.mem_takeWhile_imp (hall.symm ▸ ha)
    rw [hcode] at htrue
    cases htrue
  | cons x back =>
    -- A small letter follows, and so no word ends here.
    rw [hback, List.cons_append] at hnext
    refine notAhead_fails (char_takes hnext ?_)
    have hx : x ∈ word := (List.dropWhile_suffix isCodeChar).subset (hback ▸ List.mem_cons_self)
    exact h.chars x (hword ▸ List.mem_append_right _ hx)

/-- The name of an error code is an identifier. -/
theorem isIdentifier_of_spellable {code : ErrorCode} (h : code.Spellable) :
    isIdentifier code.name = true := by
  obtain ⟨word, -, hword, hname, -⟩ := h.read
  have hkeywords : ∀ kw ∈ Rules.keywords, kw.toList.take 2 ≠ ['e', '_'] := by decide
  rw [isIdentifier, hname]
  simp only [List.cons_append, List.nil_append, List.head?_cons, Option.any_some, Bool.and_eq_true,
    List.all_eq_true]
  refine ⟨⟨by decide, ?_⟩, fun kw hkw => bne_iff_ne.mpr fun heq => hkeywords kw hkw ?_⟩
  · refine List.forall_mem_cons.mpr ⟨by decide, List.forall_mem_cons.mpr ⟨by decide, fun ch hch => ?_⟩⟩
    have := hword ch hch
    simp only [isCodeChar, isIdentChar, startsIdent, Bool.or_eq_true] at this ⊢
    tauto
  · rw [heq]
    rfl

/-! ## Choices and marks -/

section

open Rules

variable {rules : List Rule} {a b : List String} {P : List (Tree Rule) → Prop}

/-- Of several rules, the first one that does not refuse the tokens. -/
theorem Eats.one (i : Nat) (hr : rules[i]? = some r) (hbefore : ∀ q ∈ rules.take i, Refuses (.rule q) a)
    (h : Eats (.rule r) a b P) : Eats (oneOf rules) a b P := by
  refine .any i (p := .rule r) ?_ ?_ h
  · rw [List.getElem?_map, hr]
    rfl
  · intro q hq
    rw [← List.map_take] at hq
    obtain ⟨r, hr, rfl⟩ := List.mem_map.mp hq
    exact hbefore r hr

theorem Refuses.one (h : ∀ r ∈ rules, Refuses (.rule r) a) : Refuses (oneOf rules) a :=
  .any fun p hp => by
    obtain ⟨r, hr, rfl⟩ := List.mem_map.mp hp
    exact h r hr

/-- Rules that cannot match a token. -/
theorem Refuses.each_rule (n : Nat)
    (h : rules.all (fun q => declines (fun _ => false) t.toList n (.rule q)) = true) :
    ∀ q ∈ rules, Refuses (.rule q) (t :: ts) :=
  fun q hq => .of_declines n (List.all_eq_true.mp h q hq)

/-- Rules that match nothing that starts with a letter. -/
theorem Refuses.each_at_word (h : IsWord t.toList) (n : Nat)
    (hrules : rules.all (fun q => letters.all fun ch => refuses grammar false (some ch) 8 blank &&
      refuses grammar true (some ch) n (.rule q)) = true) :
    ∀ q ∈ rules, Refuses (.rule q) (t :: ts) :=
  fun q hq => .at_word h n (List.all_eq_true.mp hrules q hq)

/-- A rule for a fixed text. -/
theorem Eats.mark (hr : Rules.body r = plain [Rules.lit t]) : Eats (.rule r) (t :: ts) ts (Rooted r Bare) := by
  refine .rule (by rw [hr]; rfl) ?_
  rw [hr]
  exact .lit t ts

theorem Spelt.rooted {us : List (Tree Rule)} (h : Spelt r t us) : Rooted r Bare us := by
  obtain ⟨line, column, rfl⟩ := h
  exact ⟨line, column, _, _, rfl, rfl⟩

/-- Two dots are no dot before the name of a property. -/
theorem Refuses.dots (hr : r ∈ [Rule.propExpr, .prop]) : Refuses (.rule r) (".." :: ts) := by
  rintro c ⟨-, tail, hrest, -⟩
  have hdot : c.rest = ['.'] ++ (['.'] ++ tail) := hrest
  have hnext := Cursor.rest_skip_append hdot
  have hstill : Still grammar (c.skip ['.'].length) :=
    still_of_refuses (x := some '.') (by rw [hnext]; rfl) 8 (by decide)
  simp only [List.mem_cons, List.not_mem_nil, or_false] at hr
  rcases hr with rfl | rfl
  · exact rule_fails (seq_fails_after (text_takes hdot) hstill.skips (fails_at hnext 12 (by decide)))
  · exact rule_fails (seq_fails_after (text_takes hdot) hstill.skips (fails_at hnext 12 (by decide)))

/-- The sign of an assignment. -/
abbrev setSign : Pattern Rule := .all [lit "=", .notAhead (lit "=")]

/-- Two equals signs are no sign of an assignment. -/
theorem equals_fail (hrest : c.rest = ['=', '='] ++ tail) :
    Takes grammar {} (lit "=") c (c.skip 1) [] ∧ Skips grammar {} (c.skip 1) (c.skip 1) ∧
      Fails grammar {} (.notAhead (lit "=")) (c.skip 1) := by
  have hequals : c.rest = ['='] ++ (['='] ++ tail) := hrest
  have hnext : (c.skip 1).rest = ['='] ++ tail := Cursor.rest_skip_append hequals
  have hstill : Still grammar (c.skip 1) :=
    still_of_refuses (x := some '=') (by rw [hnext]; rfl) 8 (by decide)
  exact ⟨text_takes hequals, hstill.skips, notAhead_fails (text_takes hnext)⟩

theorem Refuses.equals : Refuses setSign ("==" :: ts) ∧ Refuses (.rule .assign) ("==" :: ts) := by
  constructor
  · rintro c ⟨-, tail, hrest, -⟩
    obtain ⟨htakes, hskip, hfails⟩ := equals_fail hrest
    exact seq_fails_after htakes hskip hfails
  · rintro c ⟨-, tail, hrest, -⟩
    obtain ⟨htakes, hskip, hfails⟩ := equals_fail hrest
    exact rule_fails (seq_fails_after htakes hskip (seq_fails hfails))

/-! ## What ends an expression -/

/-- The tokens behind expressions. -/
def closers : List String := [")", "]", "\x7d", ",", ";", "|", "..", "->"]

/-- Nothing of an expression follows. -/
structure ExprEnd (b : List String) : Prop where
  unchained : Refuses (oneOf postfixOps) b
  unjoined : Refuses (oneOf infixOps) b
  uncalled : Refuses (lit "(") b
  unset : Refuses (lit "=") b

theorem exprEnd_of_closer (h : t ∈ closers) : ExprEnd (t :: ts) := by
  have hposts : ∀ t ∈ closers, ∀ r ∈ postfixOps,
      declines (fun _ => false) t.toList 12 (.rule r) = true ∨ t = ".." ∧ r ∈ [Rule.propExpr, .prop] := by
    decide
  have hins : ∀ t ∈ closers, t ≠ "->" → ∀ r ∈ infixOps,
      declines (fun _ => false) t.toList 12 (.rule r) = true := by decide
  have hcalls : ∀ t ∈ closers, declines (fun _ => false) t.toList 4 (lit "(") = true ∧
      declines (fun _ => false) t.toList 4 (lit "=") = true := by decide
  refine ⟨.one fun r hr => ?_, ?_, .of_declines 4 (hcalls t h).1, .of_declines 4 (hcalls t h).2⟩
  · rcases hposts t h r hr with hdeclines | ⟨rfl, hdot⟩
    · exact .of_declines 12 hdeclines
    · exact .dots hdot
  · by_cases harrow : t = "->"
    · subst harrow
      rintro c ⟨-, tail, hrest, -⟩
      exact arrow_fails hrest
    · exact .one fun r hr => .of_declines 12 (hins t h harrow r hr)

/-! ## Infix operators -/

/-- The tokens of infix operators and the rules for them, in the order in which they are tried. -/
def infixTokens : List (String × Rule) :=
  [("||", .lor), ("&&", .land), ("==", .eq), ("!=", .neq), ("<=", .lte), (">=", .gte), ("<", .lt),
   (">", .gt), ("in", .inOp), ("+", .add), ("-", .sub), ("*", .mul), ("/", .div), ("%", .modulus),
   ("^", .pow)]

theorem Eats.inOp : Eats (.rule .inOp) ("in" :: ts) ts (Rooted .inOp Bare) := by
  refine (Eats.sealed rfl fun hrest htail => ?_).imp fun _ => Spelt.rooted
  exact word_ends (by decide) hrest (word_here hrest) htail.delimited.no_ident

/-- A minus sign is an operator unless an arrowhead follows. -/
theorem Eats.sub : Eats (.rule .sub) ("-" :: ts) ts (Rooted .sub Bare) := by
  refine (Eats.sealed rfl fun hrest htail => ?_).imp fun _ => Spelt.rooted
  refine seq_tightly (text_takes hrest) (notAhead_takes (text_fails fun hhead => ?_))
  rw [Cursor.rest_skip_append hrest] at hhead
  exact absurd (htail '>' hhead) (by decide)

/-- The token of an infix operator is taken by the rule for it. -/
theorem infix_eats (i : Nat) {r : Rule} (h : infixTokens[i]? = some (t, r)) :
    Eats (oneOf infixOps) (t :: ts) ts (Rooted r Bare) := by
  have htable : ∀ i < infixTokens.length, ∀ e ∈ infixTokens[i]?, infixOps[i]? = some e.2 ∧
      (infixOps.take i).all (fun q => declines (fun _ => false) e.1.toList 12 (.rule q)) = true := by
    decide
  obtain ⟨hi, -⟩ := List.getElem?_eq_some_iff.mp h
  obtain ⟨hr, hbefore⟩ := htable i hi _ h
  have hmarks : ∀ e ∈ infixTokens, e.2 ≠ .inOp → e.2 ≠ .sub → Rules.body e.2 = plain [lit e.1] := by
    simp [infixTokens, Rules.body]
  refine .one i hr (.each_rule 12 hbefore) ?_
  have hmem := List.mem_of_getElem? h
  -- All but two of the rules take a fixed text and nothing else.
  by_cases hin : r = .inOp
  · obtain rfl : t = "in" := by
      subst hin
      simpa [infixTokens] using hmem
    exact hin ▸ .inOp
  · by_cases hsub : r = .sub
    · obtain rfl : t = "-" := by
        subst hsub
        simpa [infixTokens] using hmem
      exact hsub ▸ .sub
    · exact .mark (hmarks _ hmem hin hsub)

/-- Where an infix operator follows nothing else of an expression does. -/
theorem infix_unchained {e : String × Rule} (h : e ∈ infixTokens) :
    Refuses (oneOf postfixOps) (e.1 :: ts) ∧ Refuses (lit "(") (e.1 :: ts) ∧ Refuses setSign (e.1 :: ts) := by
  have hposts : ∀ e ∈ infixTokens, ∀ r ∈ postfixOps,
      declines (fun _ => false) e.1.toList 12 (.rule r) = true ∨ e.1 = "==" ∧ r = .assign := by decide
  have hsets : ∀ e ∈ infixTokens, declines (fun _ => false) e.1.toList 4 (lit "(") = true ∧
      (declines (fun _ => false) e.1.toList 4 setSign = true ∨ e.1 = "==") := by decide
  refine ⟨.one fun r hr => ?_, .of_declines 4 (hsets e h).1, ?_⟩
  · rcases hposts e h r hr with hdeclines | ⟨heq, rfl⟩
    · exact .of_declines 12 hdeclines
    · exact heq ▸ Refuses.equals.2
  · rcases (hsets e h).2 with hdeclines | heq
    · exact .of_declines 4 hdeclines
    · exact heq ▸ Refuses.equals.1

end

/-! ## Calls -/

/-- Without arguments behind it no name is a call. -/
theorem call_fails (h : isIdentifier t = true) (hts : Refuses (.rule .arglist) ts) :
    Refuses (.rule .builtinCall) (t :: ts) :=
  .rule rfl (.seq_after (.ident h) hts)

end Lineage.Script
