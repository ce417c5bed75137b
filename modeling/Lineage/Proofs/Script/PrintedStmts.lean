/-
  Lineage.Proofs.Script.PrintedStmts

  Printed scripts are read back.

  A statement ends with a token of its own, so that a block is read statement by statement up to
  the word that closes it.
-/
import Lineage.Proofs.Script.Keywords
import Lineage.Proofs.Script.PrintedExprs

namespace Lineage.Script

open Grammar Rules

/-! ## Trees with the slots that they have -/

mutual

theorem Expr.recast_id : ∀ e : Expr, e.recast id = e
  | .assign target value => by rw [Expr.recast, Expr.recast_id target, Expr.recast_id value]
  | .value _ | .var _ => rfl
  | .binary _ left right | .and left right | .or left right => by
    rw [Expr.recast, Expr.recast_id left, Expr.recast_id right]
  | .unary _ operand => by rw [Expr.recast, Expr.recast_id operand]
  | .prop object property => by rw [Expr.recast, Expr.recast_id object, Expr.recast_id property]
  | .call _ args => by rw [Expr.recast, Arg.recastIn_id args]
  | .verb object name args => by
    rw [Expr.recast, Expr.recast_id object, Expr.recast_id name, Arg.recastIn_id args]
  | .range base first last => by
    rw [Expr.recast, Expr.recast_id base, Expr.recast_id first, Expr.recast_id last]
  | .cond condition consequence alternative => by
    rw [Expr.recast, Expr.recast_id condition, Expr.recast_id consequence, Expr.recast_id alternative]
  | .index base index => by rw [Expr.recast, Expr.recast_id base, Expr.recast_id index]
  | .list items => by rw [Expr.recast, Arg.recastIn_id items]
  | .map entries => by rw [Expr.recast, Expr.recastIn_id entries]
  | .scatter targets source => by rw [Expr.recast, Target.recastIn_id targets, Expr.recast_id source]

theorem Arg.recastIn_id : ∀ args : List Arg, Arg.recastIn id args = args
  | [] => rfl
  | .item e :: rest | .splice e :: rest => by rw [Arg.recastIn, Expr.recast_id e, Arg.recastIn_id rest]

theorem Expr.recastIn_id : ∀ entries : List (Expr × Expr), Expr.recastIn id entries = entries
  | [] => rfl
  | (key, value) :: rest => by
    rw [Expr.recastIn, Expr.recast_id key, Expr.recast_id value, Expr.recastIn_id rest]

theorem Target.recastIn_id : ∀ targets : List Target, Target.recastIn id targets = targets
  | [] => rfl
  | .required _ :: rest | .rest _ :: rest | .optional _ none :: rest => by
    rw [Target.recastIn, Target.recastIn_id rest]
    rfl
  | .optional _ (some default) :: rest => by
    rw [Target.recastIn, Expr.recast_id default, Target.recastIn_id rest]
    rfl

end

theorem Codes.recast_id (codes : Codes) : codes.recast id = codes := by
  cases codes with
  | any => rfl
  | listed codes => rw [recast, Arg.recastIn_id]

/-! ## Tokens around statements -/

section

variable {t : String} {ts b m : List String} {P : List (Tree Rule) → Prop} {q : Pattern Rule}

/-- No statement follows. -/
abbrev Closed (b : List String) : Prop := Refuses (.rule .statement) b

theorem closed_of_word (h : t ∈ closingWords ++ ["elseif"]) : Closed (t :: ts) := by
  have hwords : ∀ t ∈ closingWords ++ ["elseif"], t ∈ keywords ∧
      declines (· == .ident) t.toList 60 (.rule .statement) = true := by decide
  exact .keyword (hwords t h).1 60 (hwords t h).2

theorem closed_at_end : Closed [] := by
  intro c hc
  have hhead : c.rest.head? = none := by
    rw [show c.rest = [] from hc]
    rfl
  exact fails_of_refuses (still_of_refuses hhead 8 (by decide)) hhead 60 (by decide)

/-- The look-ahead for the word of a statement. -/
theorem Eats.keyed_ahead {o : Opening} (h : o ∈ openings) :
    Eats (.ahead (.rule o.lookAhead)) (o.word :: ts) (o.word :: ts) Bare := by
  intro c hc
  have ⟨_, tail, hword, htail, _⟩ := hc
  obtain ⟨hbody, -⟩ := opening_body o h
  have hsealed : (grammar.inside { probing := true } o.lookAhead).spacing ≠ .loose := by
    show (Rules.body o.lookAhead).spacing.getD .loose ≠ .loose
    rw [hbody]
    exact nofun
  have htakes : Takes grammar (grammar.inside { probing := true } o.lookAhead)
      (Rules.body o.lookAhead).body c (c.skip o.word.toList.length) [] := by
    rw [hbody]
    exact word_ends hsealed hword (word_here hword) htail.delimited.no_ident
  exact ⟨c, c, [], ahead_takes (rule_takes_unplanted rfl htakes), hc.calm _, hc, rfl⟩

/-- Where the look-ahead for its word fails no statement of that kind matches. -/
theorem Refuses.keyed {o : Opening} (h : o ∈ openings)
    (hword : ∀ c, Ahead ts c → ∀ s, Fails grammar s (.rule o.lookAhead) c) : Refuses (.rule o.rule) ts := by
  intro c hc
  obtain ⟨-, rest, hbody, -⟩ := opening_body o h
  refine rule_fails ?_
  show Fails grammar _ (Rules.body o.rule).body c
  rw [hbody]
  exact seq_fails (ahead_fails (hword c hc _))

/-- No word that opens a statement starts an expression. -/
theorem Opens.unkeyed (h : Opens ts) {o : Opening} (ho : o ∈ openings) : Refuses (.rule o.rule) (ts ++ m) := by
  refine .keyed ho fun c hc s => ?_
  cases ts with
  | nil => exact h.elim
  | cons t ts =>
    obtain ⟨hcalm, tail, hrest, htail, -⟩ := hc
    rcases h with ⟨ch, hch, hhead⟩ | hconst | ⟨hident, -⟩
    · have hmarks : ∀ o ∈ openings, (exprMarks.all fun ch => refuses grammar false (some ch) 8 blank &&
          refuses grammar true (some ch) 8 (.rule o.lookAhead)) = true := by decide
      obtain ⟨more, hmore⟩ := List.head?_eq_some_iff.mp hhead
      have hstart : c.rest = ch :: (more ++ tail) := by
        rw [hrest, hmore]
        rfl
      exact fails_at hstart 8 (List.all_eq_true.mp (hmarks o ho) ch hch)
    · have hwords : ∀ o ∈ openings, ∀ kw ∈ constantWords,
          declines (fun _ => false) kw.toList 8 (.rule o.lookAhead) = true := by decide
      exact (fails_and_stays hcalm hrest htail (fun _ h => by cases h) 8).1 (hwords o ho t hconst)
    · obtain ⟨hword, hothers⟩ := isIdentifier_iff.mp hident
      have hkeywords : ∀ o ∈ openings, [o.word] ⊆ keywords := by decide
      exact word_rule_fails [o.word] (opening_body o ho).1 hword
        (hothers.of_keywords (hkeywords o ho)) hrest htail.delimited

end

/-! ## What is read -/

section

variable {ν : Name → String} {V : Finset String} {customErrors : Bool} {α β : Type}

/-- What is read is, up to what is dropped, what the table says.  Positions are dropped: they depend
on the gaps between the tokens. -/
def ResolvesTo (V : Finset String) (customErrors : Bool) (x : Reading α) (drop : α → β) (z : Names → β) :
    Prop :=
  ∃ y, Resolves V customErrors x y ∧ ∀ table, drop (y table) = z table

/-- The tree of a statement. -/
def IsStatement (ν : Name → String) (V : Finset String) (customErrors : Bool) (node : StmtNode)
    (us : List (Tree Rule)) : Prop :=
  ∃ line column text inner, us = [.node .statement line column text [inner]] ∧
    ResolvesTo V customErrors (readStatement inner) (Option.map (Stmt.recast id))
      fun table => some (.mk 0 0 (node.recast (slots ν table)))

/-- The tree of a block. -/
def IsBlock (ν : Name → String) (V : Finset String) (customErrors : Bool) (body : List Stmt)
    (us : List (Tree Rule)) : Prop :=
  ∃ t, us = [t] ∧ ResolvesTo V customErrors (readBlock t) (Stmt.recastIn id)
    fun table => Stmt.recastIn (slots ν table) body

/-- The trees inside of a statement. -/
def IsNode (ν : Name → String) (V : Finset String) (customErrors : Bool) (r : Rule) (node : StmtNode)
    (us : List (Tree Rule)) : Prop :=
  ResolvesTo V customErrors (readNode r us) (Option.map (StmtNode.recast id))
    fun table => some (node.recast (slots ν table))

/-- The kinds of statements, in the order in which they are tried. -/
abbrev statementRules : List Rule := [.ifStatement, .forRangeStatement, .forInStatement, .whileStatement,
  .tryExceptStatement, .breakStatement, .continueStatement, .returnStatement, .letStatement,
  .exprStatement]

variable {node : StmtNode} {body : List Stmt} {a b : List String} {r : Rule}

theorem statement_eats (i : Nat) (hr : statementRules[i]? = some r) (hspacing : (Rules.body r).spacing = none)
    (hbefore : ∀ q ∈ statementRules.take i, Refuses (.rule q) a)
    (h : Eats (Rules.body r).body a b (IsNode ν V customErrors r node)) :
    Eats (.rule .statement) a b (IsStatement ν V customErrors node) := by
  refine (Eats.rule (r := .statement) rfl (.one i hr hbefore (.rule hspacing h))).imp ?_
  rintro _ ⟨line, column, text, _, rfl, line', column', text', us, rfl, y, hy, hdrop⟩
  refine ⟨line, column, text, _, rfl, _, hy.map (f := Option.map (Stmt.mk line' column')), fun table => ?_⟩
  have hnode := hdrop table
  cases hread : y table with
  | none =>
    rw [hread] at hnode
    cases hnode
  | some node' =>
    rw [hread] at hnode
    simp only [Option.map_some, Option.some.injEq] at hnode ⊢
    rw [Stmt.recast, hnode]

/-- A statement that a word opens. -/
theorem keyed_eats {o : Opening} {q : Pattern Rule} {ts : List String} (i : Nat)
    (ho : openings[i]? = some o)
    (hbody : (Rules.body o.rule).body = .seq (.ahead (.rule o.lookAhead)) (.seq (word o.word) q))
    (hbefore : ∀ r ∈ statementRules.take i, Refuses (.rule r) (o.word :: ts))
    (h : Eats q ts b (IsNode ν V customErrors o.rule node)) :
    Eats (.rule .statement) (o.word :: ts) b (IsStatement ν V customErrors node) := by
  have hmem := List.mem_of_getElem? ho
  have hi : statementRules[i]? = some o.rule := by
    have hrules : statementRules = openings.map Opening.rule ++ [.exprStatement] := rfl
    obtain ⟨hlt, rfl⟩ := List.getElem?_eq_some_iff.mp ho
    rw [hrules, List.getElem?_append_left (by rwa [List.length_map]), List.getElem?_map, ho]
    rfl
  refine statement_eats i hi (structural_spacing ?_) hbefore
    (hbody ▸ (Eats.keyed_ahead hmem).skip ((Eats.word _ _).skip h))
  exact (by decide : ∀ o ∈ openings, o.rule.structural = true) o hmem

/-- A block is read as its statements are. -/
theorem block_eats (h : Loops (.rule .statement) a b fun us => ResolvesTo V customErrors
      (readStatements us) (Stmt.recastIn id) fun table => Stmt.recastIn (slots ν table) body) :
    Eats (.rule .statements) a b (IsBlock ν V customErrors body) := by
  refine (Eats.rule (r := .statements) rfl (Eats.star h)).imp ?_
  rintro _ ⟨line, column, text, us, rfl, hus⟩
  exact ⟨_, rfl, hus⟩

/-- The statements of a block are read up to where no statement follows. -/
def ReadsBlock (ν : Name → String) (V : Finset String) (customErrors : Bool) (body : List Stmt) : Prop :=
  ∀ b, Closed b → Loops (.rule .statement) (Stmt.blockTokens ν body ++ b) b fun us =>
    ResolvesTo V customErrors (readStatements us) (Stmt.recastIn id)
      fun table => Stmt.recastIn (slots ν table) body

/-- A statement is read. -/
def StmtNode.Reads (ν : Name → String) (V : Finset String) (customErrors : Bool) (node : StmtNode) : Prop :=
  ∀ b, Eats (.rule .statement) (node.tokens ν ++ b) b (IsStatement ν V customErrors node)

theorem readsBlock_nil : ReadsBlock ν V customErrors [] := by
  intro b hb
  refine (Loops.stop hb).imp ?_
  rintro _ rfl
  exact ⟨_, .pure [], fun _ => rfl⟩

/-- A statement before others. -/
theorem readsBlock_cons {line column : Nat} (h : node.Reads ν V customErrors)
    (hbody : ReadsBlock ν V customErrors body) :
    ReadsBlock ν V customErrors (.mk line column node :: body) := by
  intro b hb
  rw [Stmt.blockTokens, Stmt.tokens, List.append_assoc]
  refine (Loops.more (h _) (hbody b hb)).imp ?_
  rintro _ ⟨_, vs, rfl, ⟨line', column', text, inner, rfl, y, hy, hdrop⟩, z, hz, hdrop'⟩
  refine ⟨_, hy.bind (z := fun s table => s.toList ++ z table) fun s => ?_, fun table => ?_⟩
  · -- Where a lone semicolon is read there is no statement.
    cases s with
    | some s => exact hz.map
    | none => exact hz
  · have hstmt := hdrop table
    cases hread : y table with
    | none =>
      rw [hread] at hstmt
      cases hstmt
    | some s =>
      rw [hread] at hstmt
      simp only [Option.map_some, Option.some.injEq] at hstmt
      simp only [Option.toList_some, List.singleton_append, Stmt.recastIn, Stmt.recast, hstmt, hdrop']

variable {e : Expr} {n : Name}

theorem reads_expr (hopen : Opens (e.tokens ν)) (he : e.Reads ν V customErrors) :
    StmtNode.Reads ν V customErrors (.expr e) := by
  intro b
  have hend : ExprEnd (";" :: b) := exprEnd_of_closer (by decide)
  -- All kinds before this one are opened by a word.
  have hkeyed : ∀ q ∈ statementRules.take 9, ∃ o ∈ openings, o.rule = q := by decide
  have htokens : (StmtNode.expr e).tokens ν ++ b = e.tokens ν ++ ";" :: b := by
    rw [StmtNode.tokens, List.append_assoc]
    rfl
  rw [htokens]
  refine statement_eats 9 rfl rfl (fun q hq => ?_)
    (((Eats.opt (he.expr hend)).close (.lit ";" b)).imp ?_)
  · obtain ⟨o, ho, rfl⟩ := hkeyed q hq
    exact hopen.unkeyed ho
  · rintro _ ⟨t, rfl, ht⟩
    exact ⟨_, ht.map (f := fun e => some (StmtNode.expr e)), fun table => by
      simp only [Option.map_some, StmtNode.recast, Expr.recast_id]⟩

theorem reads_break : StmtNode.Reads ν V customErrors .break := by
  intro b
  refine keyed_eats 5 rfl rfl (.each_rule 40 (by decide)) ((Eats.lit ";" b).imp ?_)
  rintro _ rfl
  exact ⟨_, .pure (some StmtNode.break), fun _ => rfl⟩

theorem reads_continue : StmtNode.Reads ν V customErrors .continue := by
  intro b
  refine keyed_eats 6 rfl rfl (.each_rule 40 (by decide)) ((Eats.lit ";" b).imp ?_)
  rintro _ rfl
  exact ⟨_, .pure (some StmtNode.continue), fun _ => rfl⟩

theorem return_eats {q : List String} (h : Eats (.all [.opt Rules.expr, lit ";"]) q b
      (IsNode ν V customErrors .returnStatement node)) :
    Eats (.rule .statement) ("return" :: q) b (IsStatement ν V customErrors node) :=
  keyed_eats 7 rfl rfl (.each_rule 40 (by decide)) h

theorem reads_return_none : StmtNode.Reads ν V customErrors (.return none) := by
  intro b
  refine return_eats (((Eats.opt_none (.of_declines 60 (by decide))).skip (.lit ";" b)).imp ?_)
  rintro _ rfl
  exact ⟨_, .pure (some (StmtNode.return none)), fun _ => rfl⟩

theorem reads_return (he : e.Reads ν V customErrors) : StmtNode.Reads ν V customErrors (.return (some e)) := by
  intro b
  have hend : ExprEnd (";" :: b) := exprEnd_of_closer (by decide)
  have htokens : (StmtNode.return (some e)).tokens ν ++ b = "return" :: (e.tokens ν ++ ";" :: b) := by
    rw [StmtNode.tokens, List.append_assoc]
    rfl
  rw [htokens]
  refine return_eats (((Eats.opt (he.expr hend)).close (.lit ";" b)).imp ?_)
  rintro _ ⟨t, rfl, ht⟩
  exact ⟨_, ht.map (f := fun e => some (StmtNode.return (some e))), fun table => by
    simp only [Option.map_some, StmtNode.recast, Expr.recast_id]⟩

/-- A condition in parentheses, before more. -/
theorem condition_eats {q : Pattern Rule} {ts : List String} {P : List (Tree Rule) → Prop}
    (he : e.Reads ν V customErrors) (h : Eats q ts b P) :
    Eats (.seq (lit "(") (.seq Rules.expr (.seq (lit ")") q))) ("(" :: (e.tokens ν ++ ")" :: ts)) b
      (Joined (IsExpr V customErrors fun table => e.recast (slots ν table)) P) := by
  have hclose : ExprEnd (")" :: ts) := exprEnd_of_closer (by decide)
  exact (Eats.lit "(" _).skip ((he.expr hclose).seq ((Eats.lit ")" _).skip h))

theorem reads_while (he : e.Reads ν V customErrors) (hbody : ReadsBlock ν V customErrors body) :
    StmtNode.Reads ν V customErrors (.while e body) := by
  intro b
  have htokens : (StmtNode.while e body).tokens ν ++ b =
      "while" :: "(" :: (e.tokens ν ++ ")" :: (Stmt.blockTokens ν body ++ "endwhile" :: b)) := by
    simp only [StmtNode.tokens, List.append_assoc, List.cons_append, List.nil_append]
  rw [htokens]
  have hclosed : Closed ("endwhile" :: b) := closed_of_word (by decide)
  refine keyed_eats 3 rfl rfl (.each_rule 40 (by decide))
    ((condition_eats he ((block_eats (hbody _ hclosed)).close (.word "endwhile" b))).imp ?_)
  rintro _ ⟨_, _, rfl, ⟨t, rfl, ht⟩, t', rfl, y, hy, hdrop⟩
  exact ⟨_, ht.map₂ (f := fun e body => some (StmtNode.while e body)) hy, fun table => by
    simp only [Option.map_some, StmtNode.recast, Expr.recast_id, hdrop]⟩

/-! ## Loops over lists and ranges -/

theorem reads_forList (hn : Nameable ν V n) (he : e.Reads ν V customErrors)
    (hbody : ReadsBlock ν V customErrors body) : StmtNode.Reads ν V customErrors (.forList n e body) := by
  intro b
  have htokens : (StmtNode.forList n e body).tokens ν ++ b = "for" :: ν n :: "in" :: "(" ::
      (e.tokens ν ++ ")" :: (Stmt.blockTokens ν body ++ "endfor" :: b)) := by
    simp only [StmtNode.tokens, List.append_assoc, List.cons_append, List.nil_append]
  rw [htokens]
  have hclosed : Closed ("endfor" :: b) := closed_of_word (by decide)
  have hrange : Refuses (.rule .forRangeStatement) ("for" :: ν n :: "in" :: "(" ::
      (e.tokens ν ++ ")" :: (Stmt.blockTokens ν body ++ "endfor" :: b))) :=
    .rule rfl (.seq_after (.keyed_ahead (o := ⟨"for", .forRangeStatement, .kwFor⟩) (by simp [openings]))
      (.seq_after (.word "for" _) (.seq_after (name_eats customErrors hn _)
        (.seq_after (.word "in" _) (.seq (.of_declines 4 (by decide)))))))
  refine keyed_eats 2 rfl rfl (fun q hq => ?_) (((name_eats customErrors hn _).seq ((Eats.word "in" _).skip
    (condition_eats he ((block_eats (hbody _ hclosed)).close (.word "endfor" b))))).imp ?_)
  · rcases List.mem_append.mp (show q ∈ [.ifStatement] ++ [.forRangeStatement] from hq) with hq | hq
    · exact Refuses.each_rule 40 (by decide) q hq
    · exact List.mem_singleton.mp hq ▸ hrange
  · rintro _ ⟨_, _, rfl, ⟨line, column, text, rfl, hname⟩, _, _, rfl, ⟨t, rfl, ht⟩, t', rfl,
      y, hy, hdrop⟩
    exact ⟨_, hname.bind fun n => ht.map₂ (f := fun e body => some (StmtNode.forList n e body)) hy,
      fun table => by simp only [Option.map_some, StmtNode.recast, Expr.recast_id, hdrop, id]⟩

theorem reads_forRange {e' : Expr} (hn : Nameable ν V n) (he : e.Reads ν V customErrors)
    (he' : e'.Reads ν V customErrors) (hbody : ReadsBlock ν V customErrors body) :
    StmtNode.Reads ν V customErrors (.forRange n e e' body) := by
  intro b
  have htokens : (StmtNode.forRange n e e' body).tokens ν ++ b = "for" :: ν n :: "in" :: "[" ::
      (e.tokens ν ++ ".." :: (e'.tokens ν ++ "]" :: (Stmt.blockTokens ν body ++ "endfor" :: b))) := by
    simp only [StmtNode.tokens, List.append_assoc, List.cons_append, List.nil_append]
  rw [htokens]
  have hclosed : Closed ("endfor" :: b) := closed_of_word (by decide)
  have hdots : ExprEnd (".." :: (e'.tokens ν ++ "]" :: (Stmt.blockTokens ν body ++ "endfor" :: b))) :=
    exprEnd_of_closer (by decide)
  have hclose : ExprEnd ("]" :: (Stmt.blockTokens ν body ++ "endfor" :: b)) := exprEnd_of_closer (by decide)
  refine keyed_eats 1 rfl rfl (.each_rule 40 (by decide)) (((name_eats customErrors hn _).seq
    ((Eats.word "in" _).skip ((Eats.lit "[" _).skip ((he.expr hdots).seq ((Eats.lit ".." _).skip
      ((he'.expr hclose).seq ((Eats.lit "]" _).skip ((block_eats (hbody _ hclosed)).close
        (.word "endfor" b))))))))).imp ?_)
  rintro _ ⟨_, _, rfl, ⟨line, column, text, rfl, hname⟩, _, _, rfl, ⟨t, rfl, ht⟩, _, _, rfl,
    ⟨t', rfl, ht'⟩, t₂, rfl, y, hy, hdrop⟩
  exact ⟨_, hname.bind fun n => ht.bind fun e => ht'.map₂
    (f := fun e' body => some (StmtNode.forRange n e e' body)) hy,
    fun table => by simp only [Option.map_some, StmtNode.recast, Expr.recast_id, hdrop, id]⟩

/-! ## Branches -/

/-- The clauses of a branch with the slots that they have. -/
def dropClauses (clauses : List (Expr × List Stmt) × Option (List Stmt)) :
    List (Expr × List Stmt) × Option (List Stmt) :=
  (Stmt.recastArms id clauses.1, clauses.2.map (Stmt.recastIn id))

/-- The clauses behind the first block of a branch are read before its last clause. -/
def ReadsArms (ν : Name → String) (V : Finset String) (customErrors : Bool)
    (arms : List (Expr × List Stmt)) : Prop :=
  ∀ b, Closed b → Refuses (.rule .elseifClause) b →
    Loops (.rule .elseifClause) (Stmt.armTokens ν "elseif" arms ++ b) b fun us =>
      ∀ vs (o : Names → Option (List Stmt)),
        ResolvesTo V customErrors (readClauses vs) dropClauses (fun table => ([], o table)) →
        ResolvesTo V customErrors (readClauses (us ++ vs)) dropClauses
          fun table => (Stmt.recastArms (slots ν table) arms, o table)

theorem closed_arms (ν : Name → String) (arms : List (Expr × List Stmt)) (hb : Closed b) :
    Closed (Stmt.armTokens ν "elseif" arms ++ b) := by
  cases arms with
  | nil => exact hb
  | cons arm arms => exact closed_of_word (by decide)

theorem readsArms_nil : ReadsArms ν V customErrors [] := by
  intro b _ hb
  refine (Loops.stop hb).imp ?_
  rintro _ rfl vs o hvs
  exact hvs

theorem readsArms_cons {arms : List (Expr × List Stmt)} (he : e.Reads ν V customErrors)
    (hbody : ReadsBlock ν V customErrors body) (harms : ReadsArms ν V customErrors arms) :
    ReadsArms ν V customErrors ((e, body) :: arms) := by
  intro b hclosed hb
  have htokens : Stmt.armTokens ν "elseif" ((e, body) :: arms) ++ b = "elseif" :: "(" ::
      (e.tokens ν ++ ")" :: (Stmt.blockTokens ν body ++ (Stmt.armTokens ν "elseif" arms ++ b))) := by
    simp only [Stmt.armTokens, List.append_assoc, List.cons_append]
  rw [htokens]
  have harm := (Eats.word "elseif" _).skip
    (condition_eats he (block_eats (hbody _ (closed_arms ν arms hclosed))))
  refine (Loops.more (Eats.rule (r := .elseifClause) rfl harm) (harms b hclosed hb)).imp ?_
  rintro _ ⟨_, us, rfl, ⟨line, column, text, _, rfl, _, _, rfl, ⟨t, rfl, ht⟩, t', rfl, y, hy, hdrop⟩,
    hus⟩ vs o hvs
  obtain ⟨z, hz, hclauses⟩ := hus vs o hvs
  refine ⟨_, ht.bind fun e => hy.map₂ (f := fun body (clauses : _ × _) =>
    ((e, body) :: clauses.1, clauses.2)) hz, fun table => ?_⟩
  have hz := hclauses table
  simp only [dropClauses, Prod.mk.injEq] at hz ⊢
  simp only [Stmt.recastArms, Expr.recast_id, hdrop, hz, and_self]

/-- The tokens of the last clause of a branch. -/
def elseTokens (ν : Name → String) : Option (List Stmt) → List String
  | some body => "else" :: Stmt.blockTokens ν body
  | none => []

theorem else_eats {otherwise : Option (List Stmt)}
    (h : ∀ body ∈ otherwise, ReadsBlock ν V customErrors body) :
    Eats (.opt (.rule .elseClause)) (elseTokens ν otherwise ++ "endif" :: b) ("endif" :: b) fun us =>
      ResolvesTo V customErrors (readClauses us) dropClauses
        fun table => ([], otherwise.map (Stmt.recastIn (slots ν table))) := by
  cases otherwise with
  | none =>
    refine (Eats.opt_none (.of_declines 12 (by decide))).imp ?_
    rintro _ rfl
    exact ⟨_, .pure ([], none), fun _ => rfl⟩
  | some body =>
    have hclosed : Closed ("endif" :: b) := closed_of_word (by decide)
    have helse := (Eats.word "else" _).skip (block_eats (h body rfl _ hclosed))
    refine (Eats.opt (Eats.rule (r := .elseClause) rfl helse)).imp ?_
    rintro _ ⟨line, column, text, _, rfl, t, rfl, y, hy, hdrop⟩
    exact ⟨_, hy.map (f := fun body => ([], some body)), fun table => by
      simp only [dropClauses, Stmt.recastArms, Option.map_some, hdrop]⟩

theorem reads_branch {arms : List (Expr × List Stmt)} {otherwise : Option (List Stmt)}
    (he : e.Reads ν V customErrors) (hbody : ReadsBlock ν V customErrors body)
    (harms : ReadsArms ν V customErrors arms) (h : ∀ body ∈ otherwise, ReadsBlock ν V customErrors body) :
    StmtNode.Reads ν V customErrors (.branch ((e, body) :: arms) otherwise) := by
  intro b
  have htokens : (StmtNode.branch ((e, body) :: arms) otherwise).tokens ν ++ b = "if" :: "(" ::
      (e.tokens ν ++ ")" :: (Stmt.blockTokens ν body ++ (Stmt.armTokens ν "elseif" arms ++
        (elseTokens ν otherwise ++ "endif" :: b)))) := by
    cases otherwise <;>
      simp only [StmtNode.tokens, Stmt.armTokens, elseTokens, List.append_assoc, List.cons_append,
        List.nil_append]
  rw [htokens]
  have hclosed : Closed (elseTokens ν otherwise ++ "endif" :: b) := by
    cases otherwise <;> exact closed_of_word (by decide)
  have hstop : Refuses (.rule .elseifClause) (elseTokens ν otherwise ++ "endif" :: b) := by
    cases otherwise <;> exact .of_declines 12 (by decide)
  refine keyed_eats 0 rfl rfl (fun _ hr => absurd hr List.not_mem_nil)
    ((condition_eats he ((block_eats (hbody _ (closed_arms ν arms hclosed))).seq
      ((Eats.star (harms _ hclosed hstop)).seq ((else_eats h).close (.word "endif" b))))).imp ?_)
  rintro _ ⟨_, _, rfl, ⟨t, rfl, ht⟩, _, _, rfl, ⟨t', rfl, y, hy, hdrop⟩, us, vs, rfl, hus, hvs⟩
  obtain ⟨z, hz, hclauses⟩ := hus vs _ hvs
  refine ⟨_, ht.bind fun e => hy.map₂ (f := fun body (clauses : _ × _) =>
    some (StmtNode.branch ((e, body) :: clauses.1) clauses.2)) hz, fun table => ?_⟩
  have hz := hclauses table
  simp only [dropClauses, Prod.mk.injEq] at hz
  obtain ⟨harms, hotherwise⟩ := hz
  cases otherwise with
  | none =>
    have hlast := Option.map_eq_none_iff.mp hotherwise
    simp only [Option.map_some, hlast, StmtNode.recast, Stmt.recastArms, Expr.recast_id, hdrop, harms]
  | some last =>
    obtain ⟨last', hlast, hdrop'⟩ := Option.map_eq_some_iff.mp hotherwise
    simp only [Option.map_some, hlast, hdrop', StmtNode.recast, Stmt.recastArms, Expr.recast_id, hdrop, harms]

/-! ## Handlers -/

theorem Opens.anycode {ts m : List String} (h : Opens ts) (hany : ts.head? ≠ some "any") :
    Refuses (.rule .anycode) (ts ++ m) := by
  cases ts with
  | nil => exact h.elim
  | cons t ts =>
    rcases h with hmark | hconst | ⟨hident, hlower, -⟩
    · exact .of_head hmark 8 (by decide)
    · have hwords : ∀ kw ∈ constantWords, declines (fun _ => false) kw.toList 8 (.rule .anycode) = true := by
        decide
      exact .of_declines 8 (hwords t hconst)
    · -- An identifier is taken for the word in whatever case it is, but only a call starts with one
      -- of its letters, and calls are in lower case.
      have hothers : Others ["any"] t.toList := by
        intro w hw
        rw [List.mem_singleton.mp hw]
        refine ⟨by decide, by decide, fun heq => hany ?_⟩
        rw [hlower heq.symm]
        rfl
      rintro c ⟨-, tail, hrest, htail, -⟩
      exact word_rule_fails ["any"] rfl (isIdentifier_iff.mp hident).1 hothers hrest htail.delimited

/-- The tree of the codes of a clause. -/
def IsCodes (ν : Name → String) (V : Finset String) (customErrors : Bool) (codes : Codes)
    (us : List (Tree Rule)) : Prop :=
  ∃ line column text c, us = [.node .exceptCodes line column text [c]] ∧
    Resolves V customErrors (readCodes c) fun table => codes.recast (slots ν table)

theorem listed_eats {codes : List Arg} (hcodes : Codes.Printable ν (.listed codes))
    (hall : Arg.AllIn (IsLiteral customErrors) (Nameable ν V) codes) :
    Eats (.rule .exceptCodes) (commas (Arg.tokens ν codes) ++ ")" :: b) (")" :: b)
      (IsCodes ν V customErrors (.listed codes)) := by
  obtain ⟨hne, hhead, hprintable⟩ := hcodes
  have hitems := Arg.items codes hprintable hall
  have hclose : ExprEnd (")" :: b) := exprEnd_of_closer (by decide)
  have hany : Refuses (.rule .anycode) (commas (Arg.tokens ν codes) ++ ")" :: b) := by
    rcases codes with _ | ⟨e | e, rest⟩
    · exact absurd rfl hne
    · have hopen := expr_opens e hprintable.1 hall.1 fun _ hn => hn.1
      rw [Arg.tokens, commas] at hhead ⊢
      rw [List.append_assoc]
      refine hopen.anycode fun hany => hhead ?_
      rw [List.head?_append, hany]
      rfl
    · exact .of_declines 8 (by decide)
  cases hparts : Arg.tokens ν codes with
  | nil => rcases codes with _ | ⟨e | e, rest⟩ <;> first
    | exact absurd rfl hne
    | cases hparts
  | cons ts tss =>
    rw [hparts] at hitems hany
    have hlist := Eats.rule (r := .exprlist) rfl (hitems.separated rfl hclose (.comma (b := b) (by decide)))
    refine (Eats.rule (r := .exceptCodes) rfl (.one 1 rfl (fun q hq => ?_) hlist)).imp ?_
    · rw [List.mem_singleton.mp hq]
      exact hany
    · rintro _ ⟨line, column, text, _, rfl, line', column', text', us, rfl, hus⟩
      exact ⟨line, column, text, _, rfl, hus.map⟩

theorem codes_eat {codes : Codes} (hcodes : codes.Printable ν)
    (hall : codes.All (IsLiteral customErrors) (Nameable ν V)) :
    Eats (.rule .exceptCodes) (codes.tokens ν ++ ")" :: b) (")" :: b) (IsCodes ν V customErrors codes) := by
  cases codes with
  | any =>
    have hany : Eats (.rule .anycode) ("any" :: ")" :: b) (")" :: b) (Spelt .anycode "any") :=
      .sealed rfl fun hrest htail => word_ends (by decide) hrest (word_here hrest) htail.delimited.no_ident
    refine (Eats.rule (r := .exceptCodes) rfl (.one 0 rfl nofun hany)).imp ?_
    rintro _ ⟨line, column, text, _, rfl, line', column', rfl⟩
    exact ⟨line, column, text, _, rfl, .pure Codes.any⟩
  | listed codes => exact listed_eats hcodes hall

/-- The tree of a handler is read before those of others. -/
def IsHandler (ν : Name → String) (V : Finset String) (customErrors : Bool) (handler : Handler)
    (us : List (Tree Rule)) : Prop :=
  ∀ vs rest, ResolvesTo V customErrors (readHandlers vs) (Handler.recastIn id)
      (fun table => Handler.recastIn (slots ν table) rest) →
    ResolvesTo V customErrors (readHandlers (us ++ vs)) (Handler.recastIn id)
      fun table => Handler.recastIn (slots ν table) (handler :: rest)

theorem handler_eats {name : Option Name} {codes : Codes} (hname : ∀ n, name = some n → Nameable ν V n)
    (hcodes : codes.Printable ν) (hall : codes.All (IsLiteral customErrors) (Nameable ν V))
    (hbody : ReadsBlock ν V customErrors body) (ha : Closed a) :
    Eats (.rule .exceptClause) ("except" :: ((name.map ν).toList ++ "(" :: (codes.tokens ν ++
      ")" :: (Stmt.blockTokens ν body ++ a)))) a (IsHandler ν V customErrors (.mk name codes body)) := by
  have hrest := (Eats.lit "(" _).skip ((codes_eat (b := Stmt.blockTokens ν body ++ a) hcodes hall).seq
    ((Eats.lit ")" _).skip (block_eats (hbody a ha))))
  cases name with
  | none =>
    have hnone : Eats (.opt (.rule .exceptVar))
        ("(" :: (codes.tokens ν ++ ")" :: (Stmt.blockTokens ν body ++ a))) _ Bare :=
      .opt_none (.of_declines 12 (by decide))
    refine (Eats.rule (r := .exceptClause) rfl ((Eats.word "except" _).skip (hnone.skip hrest))).imp ?_
    rintro _ ⟨line, column, text, _, rfl, _, _, rfl, ⟨line', column', text', c, rfl, hc⟩,
      t, rfl, y, hy, hdrop⟩ vs rest ⟨z, hz, hdrop'⟩
    have hread := hc.bind fun codes => hy.map₂ (f := fun body rest => Handler.mk none codes body :: rest) hz
    refine ⟨fun table => .mk none (codes.recast (slots ν table)) (y table) :: z table, ?_, fun table => ?_⟩
    · simp only [List.cons_append, List.nil_append, readHandlers]
      exact hread
    · simp only [Handler.recastIn, Codes.recast_id, hdrop, hdrop', Option.map_none]
  | some n =>
    have hvar := Eats.opt (Eats.rule (r := .exceptVar) rfl
      (name_eats customErrors (hname n rfl) ("(" :: (codes.tokens ν ++ ")" :: (Stmt.blockTokens ν body ++ a)))))
    refine (Eats.rule (r := .exceptClause) rfl ((Eats.word "except" _).skip (hvar.seq hrest))).imp ?_
    rintro _ ⟨line, column, text, _, rfl, _, _, rfl,
      ⟨line₁, column₁, text₁, _, rfl, line₂, column₂, text₂, rfl, hn⟩, _, _, rfl,
      ⟨line', column', text', c, rfl, hc⟩, t, rfl, y, hy, hdrop⟩ vs rest ⟨z, hz, hdrop'⟩
    refine ⟨_, hn.bind fun n => hc.bind fun codes => hy.map₂
      (f := fun body rest => Handler.mk (some n) codes body :: rest) hz, fun table => ?_⟩
    simp only [Handler.recastIn, Codes.recast_id, hdrop, hdrop', Option.map_some, id]

/-- Handlers are read up to where no other follows. -/
def ReadsHandlers (ν : Name → String) (V : Finset String) (customErrors : Bool) (handlers : List Handler) :
    Prop :=
  ∀ b, Closed b → Refuses (.rule .exceptClause) b →
    Loops (.rule .exceptClause) (Handler.tokens ν handlers ++ b) b fun us =>
      ResolvesTo V customErrors (readHandlers us) (Handler.recastIn id)
        fun table => Handler.recastIn (slots ν table) handlers

theorem closed_handlers (ν : Name → String) (handlers : List Handler) (hb : Closed b) :
    Closed (Handler.tokens ν handlers ++ b) := by
  rcases handlers with _ | ⟨⟨name, codes, body⟩, rest⟩
  · exact hb
  · exact closed_of_word (by decide)

theorem readsHandlers_nil : ReadsHandlers ν V customErrors [] := by
  intro b _ hb
  refine (Loops.stop hb).imp ?_
  rintro _ rfl
  exact ⟨_, .pure [], fun _ => rfl⟩

variable {name : Option Name} {codes : Codes} {rest : List Handler}

theorem handler_tokens (b : List String) : Handler.tokens ν (.mk name codes body :: rest) ++ b =
    "except" :: ((name.map ν).toList ++ "(" :: (codes.tokens ν ++
      ")" :: (Stmt.blockTokens ν body ++ (Handler.tokens ν rest ++ b)))) := by
  simp only [Handler.tokens, List.append_assoc, List.cons_append]

theorem readsHandlers_cons (hname : ∀ n, name = some n → Nameable ν V n) (hcodes : codes.Printable ν)
    (hall : codes.All (IsLiteral customErrors) (Nameable ν V)) (hbody : ReadsBlock ν V customErrors body)
    (hrest : ReadsHandlers ν V customErrors rest) :
    ReadsHandlers ν V customErrors (.mk name codes body :: rest) := by
  intro b hclosed hb
  rw [handler_tokens]
  refine (Loops.more (handler_eats hname hcodes hall hbody (closed_handlers ν rest hclosed))
    (hrest b hclosed hb)).imp ?_
  rintro _ ⟨us, vs, rfl, hus, hvs⟩
  exact hus vs rest hvs

theorem reads_try {tried : List Stmt} (htried : ReadsBlock ν V customErrors tried)
    (hname : ∀ n, name = some n → Nameable ν V n) (hcodes : codes.Printable ν)
    (hall : codes.All (IsLiteral customErrors) (Nameable ν V)) (hbody : ReadsBlock ν V customErrors body)
    (hrest : ReadsHandlers ν V customErrors rest) :
    StmtNode.Reads ν V customErrors (.try tried (.mk name codes body :: rest)) := by
  intro b
  have htokens : (StmtNode.try tried (.mk name codes body :: rest)).tokens ν ++ b = "try" ::
      (Stmt.blockTokens ν tried ++ (Handler.tokens ν (.mk name codes body :: rest) ++ "endtry" :: b)) := by
    simp only [StmtNode.tokens, List.append_assoc, List.cons_append, List.nil_append]
  rw [htokens]
  have hend : Closed ("endtry" :: b) := closed_of_word (by decide)
  have hstop : Refuses (.rule .exceptClause) ("endtry" :: b) := .of_declines 12 (by decide)
  have hfirst : Closed (Handler.tokens ν (.mk name codes body :: rest) ++ "endtry" :: b) :=
    closed_handlers ν _ hend
  have hblock := block_eats (htried _ hfirst)
  rw [handler_tokens] at hblock ⊢
  have hhandlers := Eats.plus (handler_eats hname hcodes hall hbody (closed_handlers ν rest hend))
    (hrest _ hend hstop)
  refine keyed_eats 4 rfl rfl (.each_rule 40 (by decide))
    ((hblock.seq (hhandlers.close (.word "endtry" b))).imp ?_)
  rintro _ ⟨_, _, rfl, ⟨t, rfl, y, hy, hdrop⟩, us, vs, rfl, hus, hvs⟩
  obtain ⟨z, hz, hdrop'⟩ := hus vs rest hvs
  exact ⟨_, hy.map₂ (f := fun body handlers => some (StmtNode.try body handlers)) hz, fun table => by
    simp only [Option.map_some, StmtNode.recast, hdrop, hdrop']⟩

/-! ## Statements -/

mutual

/-- Every statement is read back, by induction on it. -/
theorem StmtNode.reads : ∀ node : StmtNode, node.Printable ν →
    node.All (IsLiteral customErrors) (Nameable ν V) → StmtNode.Reads ν V customErrors node
  | .branch [] none, h, _ | .branch [] (some _), h, _ => absurd rfl h.1
  | .branch ((e, body) :: arms) none, h, hall =>
    reads_branch (Expr.reads e h.2.1.1 hall.1.1) (Stmt.readsBlock body h.2.1.2.1 hall.1.2.1)
      (Stmt.readsArms arms h.2.1.2.2 hall.1.2.2) nofun
  | .branch ((e, body) :: arms) (some last), h, hall =>
    reads_branch (Expr.reads e h.2.1.1 hall.1.1) (Stmt.readsBlock body h.2.1.2.1 hall.1.2.1)
      (Stmt.readsArms arms h.2.1.2.2 hall.1.2.2) fun _ hlast => by
        cases hlast
        exact Stmt.readsBlock last h.2.2 hall.2
  | .forList _ source body, h, hall => reads_forList hall.1 (Expr.reads source h.1 hall.2.1)
    (Stmt.readsBlock body h.2 hall.2.2)
  | .forRange _ first last body, h, hall => reads_forRange hall.1 (Expr.reads first h.1 hall.2.1)
    (Expr.reads last h.2.1 hall.2.2.1) (Stmt.readsBlock body h.2.2 hall.2.2.2)
  | .while e body, h, hall => reads_while (Expr.reads e h.1 hall.1) (Stmt.readsBlock body h.2 hall.2)
  | .try _ [], h, _ => absurd rfl h.1
  | .try tried (.mk _ _ body :: rest), h, hall => reads_try (Stmt.readsBlock tried h.2.1 hall.1)
    hall.2.1 h.2.2.1 hall.2.2.1 (Stmt.readsBlock body h.2.2.2.1 hall.2.2.2.1)
    (Handler.reads rest h.2.2.2.2 hall.2.2.2.2)
  | .break, _, _ => reads_break
  | .continue, _, _ => reads_continue
  | .return none, _, _ => reads_return_none
  | .return (some e), h, hall => reads_return (Expr.reads e h hall)
  | .expr e, h, hall => reads_expr (expr_opens e h hall fun _ hn => hn.1) (Expr.reads e h hall)

theorem Stmt.readsBlock : ∀ body : List Stmt, Stmt.PrintableIn ν body →
    Stmt.AllIn (IsLiteral customErrors) (Nameable ν V) body → ReadsBlock ν V customErrors body
  | [], _, _ => readsBlock_nil
  | .mk _ _ node :: rest, h, hall =>
    readsBlock_cons (StmtNode.reads node h.1 hall.1) (Stmt.readsBlock rest h.2 hall.2)

theorem Stmt.readsArms : ∀ arms : List (Expr × List Stmt), Stmt.PrintableArms ν arms →
    Stmt.AllInArms (IsLiteral customErrors) (Nameable ν V) arms → ReadsArms ν V customErrors arms
  | [], _, _ => readsArms_nil
  | (e, body) :: rest, h, hall => readsArms_cons (Expr.reads e h.1 hall.1)
    (Stmt.readsBlock body h.2.1 hall.2.1) (Stmt.readsArms rest h.2.2 hall.2.2)

theorem Handler.reads : ∀ handlers : List Handler, Handler.PrintableIn ν handlers →
    Handler.AllIn (IsLiteral customErrors) (Nameable ν V) handlers → ReadsHandlers ν V customErrors handlers
  | [], _, _ => readsHandlers_nil
  | .mk _ _ body :: rest, h, hall => readsHandlers_cons hall.1 h.1 hall.2.1
    (Stmt.readsBlock body h.2.1 hall.2.2.1) (Handler.reads rest h.2.2 hall.2.2.2)

end

end

end Lineage.Script
