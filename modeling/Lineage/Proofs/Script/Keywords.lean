/-
  Lineage.Proofs.Script.Keywords

  The words that statements are made of.

  A word that opens a statement is read whole, because the grammar looks ahead for it, and
  so is `elseif`, because a bracket follows.  The words that continue or close a statement
  are not: a name may be glued onto them.  But they come after statements, and stand only
  where no statement matches.
-/
import Lineage.Proofs.Grammar.Parts
import Lineage.Proofs.Script.TreeShapes

namespace Lineage.Script

open Grammar

/-! ## The rules of statements -/

namespace Rule

/-- The rules that a program is made of, down to its statements and their clauses. -/
def structural : Rule → Bool
  | .program | .statements | .statement | .ifStatement | .elseifClause | .elseClause
  | .forRangeStatement | .forInStatement | .whileStatement | .tryExceptStatement | .exceptClause
  | .breakStatement | .continueStatement | .returnStatement | .letStatement | .exprStatement => true
  | _ => false

/-- The clauses of statements. -/
def clauses : List Rule := [.elseifClause, .elseClause, .exceptClause]

/-- The rules that end with statements. -/
def endsStatements (r : Rule) : Bool := r == .statements || clauses.contains r

end Rule

/-- A statement that a word opens, and the rule that looks ahead for the word. -/
structure Opening where
  word : String
  rule : Rule
  lookAhead : Rule

def openings : List Opening :=
  [⟨"if", .ifStatement, .kwIf⟩, ⟨"for", .forRangeStatement, .kwFor⟩, ⟨"for", .forInStatement, .kwFor⟩,
   ⟨"while", .whileStatement, .kwWhile⟩, ⟨"try", .tryExceptStatement, .kwTry⟩,
   ⟨"break", .breakStatement, .kwBreak⟩, ⟨"continue", .continueStatement, .kwContinue⟩,
   ⟨"return", .returnStatement, .kwReturn⟩, ⟨"let", .letStatement, .kwLet⟩]

/-- The words that are read whole. -/
def openingWords : List String :=
  ["if", "elseif", "for", "while", "try", "break", "continue", "return", "let"]

/-- The words that come after statements. -/
def closingWords : List String := ["else", "endif", "endfor", "endwhile", "except", "endtry"]

section

variable {r r' outer : Rule} {w : String}

theorem structural_spacing (hr : r.structural = true) : (Rules.body r).spacing = none := by
  cases r <;> first
    | rfl
    | cases hr

/-- Structural rules stand in structural rules only. -/
theorem structural_of_mem (hr : r.structural = true) (h : .rule r ∈ (Rules.body outer).body.leaves) :
    outer.structural = true := by
  have hall : ((Rules.body outer).body.leaves.all fun l =>
      match l with
      | .rule r => !r.structural || outer.structural
      | .word _ => true) = true := by
    cases outer <;> decide
  simpa [hr] using List.all_eq_true.mp hall _ h

/-- Nothing but a look-ahead tries a keyword by itself. -/
theorem lookAhead_not_mem (outer : Rule) :
    ∀ o ∈ openings, .rule o.lookAhead ∉ (Rules.body outer).body.leaves := by
  cases outer <;> decide

/-- The words of statements stand in statements and clauses. -/
theorem word_stands (r : Rule) : ∀ w ∈ openingWords ++ closingWords,
    .word w.toList ∈ (Rules.body r).body.leaves →
      r.structural = true ∧ r ≠ .program ∨ ∃ o ∈ openings, o.lookAhead = r := by
  cases r <;> decide

/-- A word that is read whole is `elseif` or opens a statement. -/
theorem openingWord_stands (r : Rule) (hr : r.structural = true) : ∀ w ∈ openingWords,
    .word w.toList ∈ (Rules.body r).body.leaves →
      w = "elseif" ∧ r = .elseifClause ∨ ∃ o ∈ openings, o.word = w ∧ o.rule = r := by
  revert hr
  cases r <;> decide

/-- A statement that a word opens takes the word once, after it has looked ahead for it. -/
theorem opening_body : ∀ o ∈ openings, Rules.body o.lookAhead = Rules.keyword o.word ∧
    ∃ rest, (Rules.body o.rule).body =
        .seq (.ahead (.rule o.lookAhead)) (.seq (Rules.word o.word) rest) ∧
      .word o.word.toList ∉ rest.leaves := by
  intro o ho
  simp only [openings, List.mem_cons, List.not_mem_nil, or_false] at ho
  rcases ho with rfl | rfl | rfl | rfl | rfl | rfl | rfl | rfl | rfl <;>
    exact ⟨rfl, _, rfl, by decide⟩

/-- Clauses stand only after statements. -/
theorem clause_guarded (outer : Rule) : ∀ r ∈ Rule.clauses,
    (Rules.body outer).body.guards Rule.endsStatements (.rule r) false = true := by
  cases outer <;> decide

/-- A closing word comes after statements or opens a clause. -/
theorem closingWord_guarded (r : Rule) : ∀ w ∈ closingWords,
    (Rules.body r).body.guards Rule.endsStatements (.word w.toList) (Rule.clauses.contains r) = true := by
  cases r <;> decide

end

/-! ## Where they match -/

section

variable {r : Rule} {s : Setting} {c c' k k' start stop : Cursor} {ts : List (Tree Rule)}

/-- The words of statements are taken by statements and clauses. -/
theorem keyword_matched {w : String} (h : Matched grammar .program start stop r s c c')
    (hw : w ∈ openingWords ++ closingWords) (hmem : .word w.toList ∈ (Rules.body r).body.leaves) :
    r.structural = true ∧ r ≠ .program := by
  refine (word_stands r w hw hmem).resolve_right ?_
  rintro ⟨o, ho, rfl⟩
  rcases h.stands with hprogram | ⟨outer, houter⟩
  · have hne : ∀ o ∈ openings, o.lookAhead ≠ .program := by decide
    exact hne o ho hprogram
  · exact lookAhead_not_mem outer o ho houter

theorem structural_inside (hr : r.structural = true) : grammar.inside {} r = {} := by
  show Setting.mk ((Rules.body r).spacing.getD .loose) false false = {}
  rw [structural_spacing hr]
  rfl

theorem structural_body (hr : r.structural = true)
    (h : Derives grammar {} (.once (.rule r)) c c' ts) :
    ∃ us, Derives grammar {} (.once (Rules.body r).body) c c' us := by
  cases h with
  | rule _ h => exact ⟨_, structural_inside hr ▸ h⟩
  | rule_bare _ h => exact ⟨_, structural_inside hr ▸ h⟩

/-- Structural rules match outside of look-aheads, with blanks skipped between their parts, and but
for the program itself no blanks come first. -/
theorem structural_matched (h : Matched grammar .program start stop r s c c')
    (hr : r.structural = true) : s = {} ∧ (r ≠ .program → Skips grammar {} c c) := by
  induction h with
  | whole => exact ⟨structural_inside hr, fun hne => absurd rfl hne⟩
  | @inner outer r s c c' k k' _ hpart ih =>
    obtain ⟨rfl, hready⟩ := ih (structural_of_mem hr hpart.mem_leaves)
    refine ⟨structural_inside hr, fun _ => ?_⟩
    by_cases hprogram : outer = .program
    · subst hprogram
      rcases hpart with _ | _ | hfront | ⟨_, hskip, hback⟩
      · cases hfront
      · exact hback.ready grammar_orderly (skips_again grammar_orderly hskip)
    · exact hpart.ready grammar_orderly (hready hprogram)

/-- Statements end where no statement matches. -/
theorem statements_ending : Ending grammar {} (.rule .statement) (· == .statements) := by
  intro r c c' ts hr hc h c'' hskip
  obtain rfl := eq_of_beq hr
  obtain ⟨us, hbody⟩ := structural_body rfl h
  cases hbody with
  | star_some _ hmore => exact hmore.more_misses rfl hskip
  | star_none hmiss => exact hc.unique hskip ▸ hmiss

/-- So do the clauses, which end with statements. -/
theorem endsStatements_ending : Ending grammar {} (.rule .statement) Rule.endsStatements := by
  intro r c c' ts hr hc h
  rcases Bool.or_eq_true_iff.mp hr with hr | hr
  · exact statements_ending r c c' ts hr hc h
  · have hends : ∀ r ∈ Rule.clauses, r.structural = true ∧
        (Rules.body r).body.ends (· == .statements) false = true := by decide
    obtain ⟨hstructural, hend⟩ := hends r (List.contains_iff_mem.mp hr)
    obtain ⟨us, hbody⟩ := structural_body hstructural h
    exact closed_of_ends grammar_orderly statements_ending hbody false hend hc nofun

/-- Clauses begin where no statement matches. -/
theorem clause_misses (h : Matched grammar .program start stop r s c c') (hr : r ∈ Rule.clauses) :
    Misses grammar {} (.rule .statement) c := by
  have hclause : ∀ r ∈ Rule.clauses, r.structural = true ∧ r ≠ .program ∧
      .rule r ∉ (Rules.body .program).body.leaves := by decide
  obtain ⟨hstructural, hne, hprogram⟩ := hclause r hr
  cases h with
  | whole => exact absurd rfl hne
  | @inner outer _ _ _ _ _ _ houter hpart =>
    have hmem := hpart.mem_leaves
    obtain ⟨rfl, hready⟩ := structural_matched houter (structural_of_mem hstructural hmem)
    exact hpart.misses_of_guards grammar_orderly endsStatements_ending false
      (clause_guarded outer r hr) (hready fun houter => hprogram (houter ▸ hmem)) nofun

/-- A closing word stands where no statement matches. -/
theorem closing_misses (h : Matched grammar .program start stop r s c c') {w : String}
    (hw : w ∈ closingWords) (hpart : Part grammar s (.word w.toList) k k' (.once (Rules.body r).body) c c') :
    Misses grammar {} (.rule .statement) k := by
  obtain ⟨hr, hne⟩ := keyword_matched h (List.mem_append_right _ hw) hpart.mem_leaves
  obtain ⟨rfl, hready⟩ := structural_matched h hr
  refine hpart.misses_of_guards grammar_orderly endsStatements_ending _ (closingWord_guarded r w hw)
    (hready hne) fun hclause c'' hskip => ?_
  exact (hready hne).unique hskip ▸ clause_misses h (List.contains_iff_mem.mp hclause)

/-! ## Whole words -/

/-- No character that continues a word comes after it. -/
def WholeWord (w : String) (c : Cursor) : Prop :=
  ∀ ch, (c.skip w.toList.length).rest.head? = some ch → isIdentChar ch = false

/-- What a look-ahead for a keyword has found. -/
theorem whole_of_ahead {w : String} (hr : Rules.body r = Rules.keyword w)
    (h : Derives grammar s (.once (.rule r)) c c' ts) : WholeWord w c := by
  have hsealed : (grammar.inside s r).spacing = .sealed := by
    show (if s.spacing = .sealed then Spacing.sealed else (Rules.body r).spacing.getD s.spacing) = _
    rw [hr]
    exact ite_self _
  have hbody : ∃ us, Derives grammar (grammar.inside s r) (.once (Rules.body r).body) c c' us := by
    cases h with
    | rule _ h => exact ⟨_, h⟩
    | rule_bare _ h => exact ⟨_, h⟩
  obtain ⟨us, hbody⟩ := hbody
  rw [hr] at hbody
  cases hbody with
  | seq hword hskip hend =>
    cases hword
    cases hend with
    | notAhead hmiss =>
      intro ch hch
      by_contra haccepts
      obtain ⟨tail, htail⟩ := List.head?_eq_some_iff.mp hch
      rw [hskip.eq_of_sealed hsealed] at hmiss
      exact hmiss.not_takes (char_takes htail (Bool.eq_true_of_not_eq_false haccepts))

/-- A word that stands before a bracket is read whole: what continues a word is no blank. -/
theorem whole_of_bracket {w : String} {rest : Pattern Rule}
    (hskip : Skips grammar {} (c.skip w.toList.length) k)
    (h : Derives grammar {} (.once (.seq (Rules.lit "(") rest)) k k' ts) : WholeWord w c := by
  intro ch hch
  by_contra haccepts
  rw [Bool.not_eq_false] at haccepts
  obtain rfl := hskip.unique (still_of_identChar hch haccepts).skips
  cases h with
  | seq hbracket _ _ =>
    cases hbracket with
    | text hprefix =>
      obtain ⟨tail, htail⟩ := hprefix
      rw [← htail] at hch
      cases hch
      exact absurd haccepts (by decide)

/-- A word that opens a statement is read whole. -/
theorem opening_whole (h : Matched grammar .program start stop r s c c') {w : String}
    (hw : w ∈ openingWords) (hpart : Part grammar s (.word w.toList) k k' (.once (Rules.body r).body) c c') :
    WholeWord w k := by
  have hmem := hpart.mem_leaves
  obtain ⟨hr, hne⟩ := keyword_matched h (List.mem_append_left _ hw) hmem
  obtain ⟨rfl, hready⟩ := structural_matched h hr
  rcases openingWord_stands r hr w hw hmem with ⟨rfl, rfl⟩ | ⟨o, ho, rfl, rfl⟩
  · cases hpart with
    | seq_front hword hskip hrest =>
      cases hword with
      | word hword =>
        cases hword
        exact whole_of_bracket hskip hrest
    | seq_back _ _ hrest => exact absurd hrest.mem_leaves (by decide)
  · obtain ⟨hkw, rest, hbody, hnot⟩ := opening_body o ho
    rw [hbody] at hpart
    cases hpart with
    | seq_front hahead => cases hahead
    | seq_back hahead hskip hrest =>
      cases hahead with
      | ahead hahead =>
        -- The word stands where it was looked ahead for.
        obtain rfl := (hready hne).unique hskip
        cases hrest with
        | seq_front hword =>
          cases hword
          exact whole_of_ahead hkw hahead
        | seq_back _ _ hrest => exact absurd hrest.mem_leaves hnot

end

/-- **Keywords in a program.**  Of every text that the grammar accepts, whatever word of a statement
its parse takes and wherever: a word that opens a statement, or `elseif`, is read whole, so that
nothing can be glued onto it.  A word that continues or closes a statement may have something glued
onto it, but is taken only where no statement matches, so that it is not the start of an identifier
that would be one. -/
theorem keywords_stand {text : List Char} {stop : Cursor} {ts : List (Tree Rule)}
    (h : (grammar.parse .program text).2 = some (stop, ts)) :
    Matched grammar .program (.start text) stop .program {} (.start text) stop ∧
    ∀ w k, Reads grammar .program (.start text) stop w.toList k →
      startsWithWord w.toList k.rest = true ∧ (w ∈ openingWords → WholeWord w k) ∧
      (w ∈ closingWords → Misses grammar {} (.rule .statement) k) := by
  refine ⟨.whole (parse_iff_derives.mp h), ?_⟩
  rintro w k ⟨r, s, c, c', k', hmatched, hpart⟩
  exact ⟨hpart.derives_word.1, fun hw => opening_whole hmatched hw hpart,
    fun hw => closing_misses hmatched hw hpart⟩

deriving instance DecidableEq for Cursor

/-- A text in which `else` is read where `elseendif` stands. -/
def gluedElse : List Char := "if(1)elseendif".toList

abbrev gluedAt (n : Nat) : Cursor := (Cursor.start gluedElse).skip n

/-- What the matcher comes to there. -/
def gluedRun (p : Pattern Rule) (i : Nat) : Option Cursor :=
  (grammar.run 3000 {} p (gluedAt i) {}).2.map Prod.fst

theorem gluedElse_derives (p : Pattern Rule) {i j : Nat}
    (h : p.orderly measure = true ∧ enough measure (p.depth measure) (gluedAt i) ≤ 3000 ∧
      gluedRun p i = some (gluedAt j)) :
    ∃ ts, Derives grammar {} (.once p) (gluedAt i) (gluedAt j) ts := by
  obtain ⟨hp, henough, hrun⟩ := h
  obtain ⟨⟨_, ts⟩, hrun, hstop⟩ := Option.map_eq_some_iff.mp hrun
  rw [← hstop]
  exact ⟨ts, (run_derives grammar_orderly 3000).1 hp henough (Prod.ext rfl hrun)⟩

theorem gluedElse_skips {n : Nat} (h : n ≤ 14) : Skips grammar {} (gluedAt n) (gluedAt n) := by
  have hall : ∀ n ≤ 14, refuses grammar false (gluedAt n).rest.head? 8 Rules.blank = true := by decide
  exact (still_of_refuses rfl 8 (hall n h)).skips

/-- The text is one statement. -/
theorem gluedElse_matched :
    Matched grammar .program (gluedAt 0) (gluedAt 14) .ifStatement {} (gluedAt 0) (gluedAt 14) := by
  obtain ⟨_, hprogram⟩ := gluedElse_derives (i := 0) (j := 14) (.rule .program) (by decide +kernel)
  obtain ⟨_, hempty⟩ := gluedElse_derives (i := 0) (j := 0) (Rules.lit "") (by decide +kernel)
  obtain ⟨_, hstatements⟩ := gluedElse_derives (i := 0) (j := 14) Rules.statements (by decide +kernel)
  obtain ⟨_, hfinish⟩ := gluedElse_derives (i := 14) (j := 14) (.rule .endOfInput) (by decide +kernel)
  obtain ⟨_, hstatement⟩ := gluedElse_derives (i := 0) (j := 14) (.rule .statement) (by decide +kernel)
  obtain ⟨_, hif⟩ := gluedElse_derives (i := 0) (j := 14) (.rule .ifStatement) (by decide +kernel)
  have hlast : Misses grammar {} (.rule .statement) (gluedAt 14) := by
    have hrun : gluedRun (.rule .statement) 14 = none := by decide +kernel
    exact misses_of_run grammar_orderly (f := {}) rfl (by decide)
      (Prod.ext rfl (Option.map_eq_none_iff.mp hrun))
  have hinner : Matched grammar .program (gluedAt 0) (gluedAt 14) .statements {} (gluedAt 0) (gluedAt 14) :=
    (Matched.whole hprogram).inner <| .seq_back hempty (gluedElse_skips (by decide)) <|
      .seq_front (.rule hstatements) (gluedElse_skips (by decide)) hfinish
  have honly : Matched grammar .program (gluedAt 0) (gluedAt 14) .statement {} (gluedAt 0) (gluedAt 14) :=
    hinner.inner (.star_first (.rule hstatement) (.stop (gluedElse_skips (by decide)) hlast))
  exact honly.inner (.left (.rule hif))

/-- Its parse takes `else` where a letter follows it. -/
theorem gluedElse_reads :
    Reads grammar .program (gluedAt 0) (gluedAt 14) "else".toList (gluedAt 5) := by
  obtain ⟨_, hahead⟩ := gluedElse_derives (i := 0) (j := 0) (.ahead (.rule .kwIf)) (by decide +kernel)
  obtain ⟨_, hword⟩ := gluedElse_derives (i := 0) (j := 2) (Rules.word "if") (by decide +kernel)
  obtain ⟨_, hopen⟩ := gluedElse_derives (i := 2) (j := 3) (Rules.lit "(") (by decide +kernel)
  obtain ⟨_, hcond⟩ := gluedElse_derives (i := 3) (j := 4) Rules.expr (by decide +kernel)
  obtain ⟨_, hclose⟩ := gluedElse_derives (i := 4) (j := 5) (Rules.lit ")") (by decide +kernel)
  obtain ⟨_, hbody⟩ := gluedElse_derives (i := 5) (j := 5) Rules.statements (by decide +kernel)
  obtain ⟨_, hnone⟩ := gluedElse_derives (i := 5) (j := 5) (.star (.rule .elseifClause)) (by decide +kernel)
  obtain ⟨_, helse⟩ := gluedElse_derives (i := 5) (j := 9) (.rule .elseClause) (by decide +kernel)
  obtain ⟨_, hend⟩ := gluedElse_derives (i := 9) (j := 14) (Rules.word "endif") (by decide +kernel)
  have hclause : Part grammar {} (.rule .elseClause) (gluedAt 5) (gluedAt 9)
      (.once (Rules.body .ifStatement).body) (gluedAt 0) (gluedAt 14) :=
    .seq_back hahead (gluedElse_skips (by decide)) <| .seq_back hword (gluedElse_skips (by decide)) <|
    .seq_back hopen (gluedElse_skips (by decide)) <| .seq_back hcond (gluedElse_skips (by decide)) <|
    .seq_back hclose (gluedElse_skips (by decide)) <| .seq_back hbody (gluedElse_skips (by decide)) <|
    .seq_back hnone (gluedElse_skips (by decide)) <|
    .seq_front (.opt (.rule helse)) (gluedElse_skips (by decide)) hend
  obtain ⟨_, hothers⟩ := gluedElse_derives (i := 9) (j := 9) Rules.statements (by decide +kernel)
  obtain ⟨_, hkeyword⟩ := gluedElse_derives (i := 5) (j := 9) (Rules.word "else") (by decide +kernel)
  exact ⟨_, _, _, _, _, gluedElse_matched.inner hclause,
    .seq_front (.word hkeyword) (gluedElse_skips (by decide)) hothers⟩

/-- A word may have another one glued onto it, where together they start no statement. -/
theorem keywords_stand_glued :
    (∃ ts, (grammar.parse .program gluedElse).2 = some (gluedAt 14, ts)) ∧
    Reads grammar .program (gluedAt 0) (gluedAt 14) "else".toList (gluedAt 5) ∧
    ¬ WholeWord "else" (gluedAt 5) ∧ Misses grammar {} (.rule .statement) (gluedAt 5) := by
  obtain ⟨ts, hderives⟩ := gluedElse_derives (i := 0) (j := 14) (.rule .program) (by decide +kernel)
  have hparse := parse_iff_derives.mpr hderives
  refine ⟨⟨ts, hparse⟩, gluedElse_reads, fun hwhole => ?_, ?_⟩
  · exact absurd (hwhole 'e' rfl) (by decide)
  · exact ((keywords_stand hparse).2 "else" (gluedAt 5) gluedElse_reads).2.2 (by decide)

end Lineage.Script
