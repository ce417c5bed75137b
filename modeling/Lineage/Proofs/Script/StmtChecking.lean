/-
  Lineage.Proofs.Script.StmtChecking

  When the reader takes a statement.

  A statement is taken if all expressions in it are and every variable that it introduces
  is new, and comes to a legal one if it is clean.  As for expressions, each lemma is about
  one part of the reader and supposes that the blocks inside are taken (`Prepared`).
-/
import Lineage.Proofs.Script.Blocks

namespace Lineage.Script

/-- A block is taken if nothing is wrong with it that the reader would find and the variables that it
introduces are new.  It is then legal where it is clean. -/
def BlockTaken (V : Finset String) (customErrors : Bool) (t : Tree Rule) : Prop :=
  t.rule = .statements → Checks V customErrors (readBlock t) (declarations [t])
    (Everywhere (Readable customErrors) t) fun stmts =>
      ∀ inLoop, (Stmt.LegalIn inLoop stmts ↔ Clean inLoop t)

/-- A tree of the grammar whose expressions and blocks are taken. -/
structure Prepared (V : Finset String) (customErrors : Bool) (t : Tree Rule) : Prop
    extends Vetted V customErrors t where
  blocks : Everywhere (BlockTaken V customErrors) t

section

variable {V : Finset String} {customErrors : Bool} {r : Rule} {line column : Nat} {text : List Char}
  {t : Tree Rule} {ts : List (Tree Rule)}

/-! ## Parts of statements -/

theorem Prepared.inner (h : Prepared V customErrors (.node r line column text ts)) :
    ∀ t ∈ ts, Prepared V customErrors t :=
  fun t ht => ⟨h.toVetted.inner t ht, h.blocks.inner t ht⟩

theorem Prepared.first (h : ∀ u ∈ t :: ts, Prepared V customErrors u) : Prepared V customErrors t :=
  h t List.mem_cons_self

theorem Prepared.later (h : ∀ u ∈ t :: ts, Prepared V customErrors u) :
    ∀ u ∈ ts, Prepared V customErrors u :=
  fun u hu => h u (List.mem_cons_of_mem _ hu)

theorem Prepared.block (h : Prepared V customErrors t) (hr : t.rule = .statements) :
    Checks V customErrors (readBlock t) (declarations [t]) (Everywhere (Readable customErrors) t)
      fun stmts => ∀ inLoop, (Stmt.LegalIn inLoop stmts ↔ Clean inLoop t) := by
  cases t
  exact (everywhere_node.mp h.blocks).1 hr

theorem Legible.clean (h : Legible V t) (hr : t.rule ∉ stmtRules) {inLoop : Bool} :
    Clean inLoop t ↔ Everywhere Proper t :=
  and_iff_left (.inr (h.quiet hr).2)

/-- An expression in a statement. -/
theorem Prepared.expr (h : Prepared V customErrors t) (hr : t.rule = .expr) :
    Checks V customErrors (readExpr t) (declarations [t]) (Everywhere (Readable customErrors) t)
      fun e => ∀ inLoop, (e.Legal ↔ Clean inLoop t) := by
  have hquiet : t.rule ∉ stmtRules := by
    rw [hr]
    decide
  refine ((h.toVetted.expr hr).congr (h.quiet hquiet).1.symm Iff.rfl).imp fun e he inLoop => ?_
  rw [he.1, h.clean hquiet]

/-- The name of a variable in a statement. -/
theorem Prepared.slot (hV : V.card ≤ UInt16.size) {l c : Nat} {name : List Char}
    {parts : List (Tree Rule)}
    (h : Prepared V customErrors (.node r line column text (.node .ident l c name parts :: ts)))
    (hr : r ∈ variableRules) :
    Checks V customErrors (slotOf (String.ofList name)) (declarations [.node .ident l c name parts])
      (Everywhere (Readable customErrors) (.node .ident l c name parts)) fun _ =>
        ∀ inLoop, Clean inLoop (.node .ident l c name parts) := by
  have hident := Prepared.first h.inner
  obtain ⟨hreadable, hproper⟩ := hident.ident rfl
  refine ((slotOf_checks hV (h.toLegible.name hr)).congr ?_ hreadable.symm).imp fun n _ inLoop => ?_
  · exact (hident.quiet (show Rule.ident ∉ stmtRules by decide)).1.symm
  · rw [hident.clean (show Rule.ident ∉ stmtRules by decide), hproper]
    trivial

/-- The variable of a `let`. -/
theorem Prepared.declared (hV : V.card ≤ UInt16.size) {l c : Nat} {name : List Char}
    {parts : List (Tree Rule)}
    (h : Prepared V customErrors (.node .letStatement line column text (.node .ident l c name parts :: ts))) :
    Checks V customErrors (declare (String.ofList name)) [Names.fold (String.ofList name)] True
        (fun _ => True) ∧
      declarations [.node .ident l c name parts] = [] ∧
      Everywhere (Readable customErrors) (.node .ident l c name parts) ∧
      ∀ inLoop, Clean inLoop (.node .ident l c name parts) := by
  have hident := Prepared.first h.inner
  have hquiet : Rule.ident ∉ stmtRules := by decide
  obtain ⟨hreadable, hproper⟩ := hident.ident rfl
  refine ⟨declare_checks hV (h.toLegible.name (by decide)), (hident.quiet hquiet).1, hreadable.mpr trivial,
    fun inLoop => ?_⟩
  exact (hident.clean hquiet).mpr (hproper.mpr trivial)

/-! ## Clauses -/

theorem readCodes_checks (h : Prepared V customErrors t) (hr : t.rule = .anycode ∨ t.rule = .exprlist) :
    Checks V customErrors (readCodes t) (declarations [t]) (Everywhere (Readable customErrors) t)
      fun codes => ∀ inLoop, (codes.Legal ↔ Clean inLoop t) := by
  have hquiet : t.rule ∉ stmtRules := by
    rcases hr with hr | hr <;> rw [hr] <;> decide
  rw [(h.quiet hquiet).1]
  simp only [h.clean hquiet, forall_const]
  rcases hr with hr | hr
  · obtain ⟨l, c, x, ts, rfl⟩ := eq_node hr
    obtain rfl := h.leaf rfl
    rw [everywhere_readable (by decide), everywhere_proper (by decide)]
    simp only [readCodes]
    exact (Checks.pure (iff_of_true trivial everywhereIn_nil)).iff (iff_of_true trivial everywhereIn_nil)
  · obtain ⟨l, c, x, ts, rfl⟩ := eq_node hr
    rw [everywhere_readable (by decide), everywhere_proper (by decide)]
    simp only [readCodes]
    refine ((readArgs_checks fun t ht => ⟨h.toVetted.inner t ht, rule_of_map h.grown.holds t ht⟩).bind
      fun args hargs => .pure hargs).iff ?_
    rw [and_true]

/-- The clauses of a branch after the first block. -/
theorem readClauses_checks (h : ∀ t ∈ ts, Prepared V customErrors t) {clauses last : List Rule}
    (hts : ts.map Tree.rule = clauses ++ last) (hclauses : ∀ r ∈ clauses, r = .elseifClause)
    (hlast : last = [] ∨ last = [.elseClause]) :
    Checks V customErrors (readClauses ts) (declarations ts) (EverywhereIn (Readable customErrors) ts)
      fun r => ∀ inLoop, ((Stmt.LegalArms inLoop r.1 ∧ ∀ body ∈ r.2, Stmt.LegalIn inLoop body) ↔
        CleanIn inLoop ts) := by
  induction clauses generalizing ts with
  | nil =>
    rcases hlast with rfl | rfl
    · obtain rfl := List.map_eq_nil_iff.mp hts
      simp only [readClauses]
      refine (Checks.pure fun inLoop => ?_).iff (iff_of_true trivial everywhereIn_nil)
      exact iff_of_true ⟨trivial, nofun⟩ cleanIn_nil
    · obtain ⟨t, rfl, ht⟩ := eq_one hts
      have hclause := Prepared.first h
      obtain ⟨l, c, x, parts, rfl⟩ := eq_node ht
      obtain ⟨block, rfl, hrule⟩ := eq_one hclause.grown.holds
      have hblock := (Prepared.first hclause.inner).block hrule
      simp only [readClauses]
      refine (hblock.bind fun stmts hstmts => .pure fun inLoop => ?_).congr ?_ ?_
      · simp [clean_node, loops, ← hstmts, Stmt.LegalArms]
      · simp [declarations_node]
      · simp [everywhere_readable]
  | cons r clauses ih =>
    obtain ⟨rfl, hmore⟩ := List.forall_mem_cons.mp hclauses
    obtain ⟨t, rest, rfl, ht, hrest⟩ := eq_cons hts
    have hclause := Prepared.first h
    obtain ⟨l, c, x, parts, rfl⟩ := eq_node ht
    obtain ⟨condition, block, rfl, hcondition, hblock⟩ := eq_two hclause.grown.holds
    have hc := (Prepared.first hclause.inner).expr hcondition
    have hb := (Prepared.first (Prepared.later hclause.inner)).block hblock
    simp only [readClauses]
    refine (hc.bind fun e he => hb.bind fun stmts hstmts => (ih (Prepared.later h) hrest hmore).bind
      fun r hr => .pure fun inLoop => ?_).congr ?_ ?_
    · simp [clean_node, loops, ← he inLoop, ← hstmts inLoop, ← hr inLoop, Stmt.LegalArms, and_assoc]
    · rw [declarations_cons _ rest]
      simp [declarations_node]
    · simp [everywhere_readable, and_assoc]

/-- The codes of an `except` clause. -/
theorem exceptCodes_checks (h : Prepared V customErrors t) (hr : t.rule = .exceptCodes) :
    ∃ l c x codes, t = .node .exceptCodes l c x [codes] ∧
      Checks V customErrors (readCodes codes) (declarations [t]) (Everywhere (Readable customErrors) t)
        fun codes => ∀ inLoop, (codes.Legal ↔ Clean inLoop t) := by
  obtain ⟨l, c, x, parts, rfl⟩ := eq_node hr
  obtain ⟨codes, rfl, hcodes⟩ : ∃ codes, parts = [codes] ∧
      (codes.rule = .anycode ∨ codes.rule = .exprlist) := by
    rcases h.grown.holds with hone | hone
    · obtain ⟨codes, rfl, hcodes⟩ := eq_one hone
      exact ⟨codes, rfl, .inl hcodes⟩
    · obtain ⟨codes, rfl, hcodes⟩ := eq_one hone
      exact ⟨codes, rfl, .inr hcodes⟩
  refine ⟨l, c, x, codes, rfl, ?_⟩
  refine ((readCodes_checks (Prepared.first h.inner) hcodes).congr ?_ ?_).imp fun taken htaken inLoop => ?_
  · rw [declarations_node (r := .exceptCodes) (by decide)]
  · simp [everywhere_readable]
  · simp [clean_node, loops, htaken inLoop]

/-- The variable of an `except` clause. -/
theorem exceptVar_checks (hV : V.card ≤ UInt16.size) (h : Prepared V customErrors t)
    (hr : t.rule = .exceptVar) :
    ∃ l c x l' c' name parts, t = .node .exceptVar l c x [.node .ident l' c' name parts] ∧
      Checks V customErrors (slotOf (String.ofList name)) (declarations [t])
        (Everywhere (Readable customErrors) t) fun _ => ∀ inLoop, Clean inLoop t := by
  obtain ⟨l, c, x, parts, rfl⟩ := eq_node hr
  obtain ⟨ident, rfl, hident⟩ := eq_one h.grown.holds
  obtain ⟨l', c', name, parts, rfl⟩ := eq_node hident
  refine ⟨l, c, x, l', c', name, parts, rfl, ?_⟩
  refine ((h.slot hV (by decide)).congr ?_ ?_).imp fun n hclean inLoop => ?_
  · rw [declarations_node (r := .exceptVar) (by decide)]
  · simp [everywhere_readable]
  · simp [clean_node, loops, hclean inLoop]

/-- The `except` clauses of a statement. -/
theorem readHandlers_checks (hV : V.card ≤ UInt16.size)
    (h : ∀ t ∈ ts, Prepared V customErrors t ∧ t.rule = .exceptClause) :
    Checks V customErrors (readHandlers ts) (declarations ts) (EverywhereIn (Readable customErrors) ts)
      fun handlers => ∀ inLoop, (Handler.LegalIn inLoop handlers ↔ CleanIn inLoop ts) := by
  induction ts with
  | nil =>
    refine (Checks.pure fun inLoop => ?_).iff (iff_of_true trivial everywhereIn_nil)
    exact iff_of_true trivial cleanIn_nil
  | cons t rest ih =>
    obtain ⟨⟨hclause, hrule⟩, hrest⟩ := List.forall_mem_cons.mp h
    obtain ⟨l, c, x, parts, rfl⟩ := eq_node hrule
    rcases hclause.grown.holds with htwo | hthree
    · obtain ⟨codes, block, rfl, hcodes, hblock⟩ := eq_two htwo
      have hb := (Prepared.first (Prepared.later hclause.inner)).block hblock
      obtain ⟨l', c', x', codes, rfl, hc⟩ := exceptCodes_checks (Prepared.first hclause.inner) hcodes
      simp only [readHandlers]
      refine (hc.bind fun taken htaken => hb.bind fun stmts hstmts => (ih hrest).bind
        fun handlers hhandlers => .pure fun inLoop => ?_).congr ?_ ?_
      · rw [cleanIn_cons, clean_node (r := .exceptClause) (by decide), cleanIn_cons, cleanIn_cons,
          and_iff_left cleanIn_nil, and_assoc, ← htaken inLoop, ← hstmts inLoop, ← hhandlers inLoop]
        exact Iff.rfl
      · rw [declarations_cons _ rest, declarations_node (r := .exceptClause) (by decide),
          declarations_cons_cons, List.append_assoc, List.append_nil]
      · simp [everywhere_readable (r := .exceptClause), and_assoc]
    · obtain ⟨var, more, rfl, hvar, hmore⟩ := eq_cons hthree
      obtain ⟨codes, block, rfl, hcodes, hblock⟩ := eq_two hmore
      have hb := (Prepared.first (Prepared.later (Prepared.later hclause.inner))).block hblock
      obtain ⟨l', c', x', codes, rfl, hc⟩ :=
        exceptCodes_checks (Prepared.first (Prepared.later hclause.inner)) hcodes
      obtain ⟨_, _, _, _, _, name, parts, rfl, hv⟩ := exceptVar_checks hV (Prepared.first hclause.inner) hvar
      simp only [readHandlers]
      refine (hv.bind fun n hn => hc.bind fun taken htaken => hb.bind fun stmts hstmts =>
        (ih hrest).bind fun handlers hhandlers => .pure fun inLoop => ?_).congr ?_ ?_
      · rw [cleanIn_cons, clean_node (r := .exceptClause) (by decide), cleanIn_cons, cleanIn_cons,
          cleanIn_cons, and_iff_left cleanIn_nil, and_iff_right (hn inLoop), and_assoc, ← htaken inLoop,
          ← hstmts inLoop, ← hhandlers inLoop]
        exact Iff.rfl
      · rw [declarations_cons _ rest, declarations_node (r := .exceptClause) (by decide),
          declarations_cons_cons, declarations_cons_cons, List.append_assoc, List.append_assoc,
          List.append_nil]
      · simp [everywhere_readable (r := .exceptClause), and_assoc]

/-! ## Statements -/

/-- The rules of statements. -/
def statementKinds : List Rule :=
  [.ifStatement, .forRangeStatement, .forInStatement, .whileStatement, .tryExceptStatement,
    .breakStatement, .continueStatement, .returnStatement, .letStatement, .exprStatement]

theorem legal_some {inLoop : Bool} {node : StmtNode} :
    (∀ n ∈ some node, n.Legal inLoop) ↔ node.Legal inLoop := by
  simp

theorem readNode_checks (hV : V.card ≤ UInt16.size)
    (h : Prepared V customErrors (.node r line column text ts)) (hr : r ∈ statementKinds) :
    Checks V customErrors (readNode r ts) (declarations [.node r line column text ts])
      (Everywhere (Readable customErrors) (.node r line column text ts)) fun node =>
        ∀ inLoop, ((∀ n ∈ node, n.Legal inLoop) ↔ Clean inLoop (.node r line column text ts)) := by
  cases r with
  | ifStatement =>
    obtain ⟨clauses, last, hts, hclauses, hlast⟩ := h.grown.holds
    obtain ⟨condition, more, rfl, hcondition, hmore⟩ := eq_cons hts
    obtain ⟨block, rest, rfl, hblock, hrest⟩ := eq_cons hmore
    have hc := (Prepared.first h.inner).expr hcondition
    have hb := (Prepared.first (Prepared.later h.inner)).block hblock
    have hr := readClauses_checks (Prepared.later (Prepared.later h.inner)) hrest hclauses hlast
    simp only [readNode]
    refine (hc.bind fun e he => hb.bind fun stmts hstmts => hr.bind fun r hr =>
      .pure fun inLoop => ?_).congr ?_ ?_
    · rw [legal_some, clean_node (by decide), cleanIn_cons, cleanIn_cons, ← he inLoop, ← hstmts inLoop,
        ← hr inLoop]
      obtain ⟨arms, otherwise⟩ := r
      cases otherwise with
      | none =>
        show (e.Legal ∧ Stmt.LegalIn inLoop stmts ∧ Stmt.LegalArms inLoop arms) ∧ True ↔ _
        simp
      | some body =>
        show (e.Legal ∧ Stmt.LegalIn inLoop stmts ∧ Stmt.LegalArms inLoop arms) ∧
          Stmt.LegalIn inLoop body ↔ _
        simp [and_assoc]
    · rw [declarations_node (by decide), declarations_cons_cons, declarations_cons _ rest,
        List.append_nil]
    · simp [everywhere_readable]
  | forRangeStatement =>
    obtain ⟨name, more, rfl, hname, hmore⟩ := eq_cons h.grown.holds
    obtain ⟨first, more, rfl, hfirst, hmore⟩ := eq_cons hmore
    obtain ⟨last, block, rfl, hlast, hblock⟩ := eq_two hmore
    obtain ⟨_, _, _, parts, rfl⟩ := eq_node hname
    have hn := h.slot hV (by decide)
    have hf := (Prepared.first (Prepared.later h.inner)).expr hfirst
    have hl := (Prepared.first (Prepared.later (Prepared.later h.inner))).expr hlast
    have hb := (Prepared.first (Prepared.later (Prepared.later (Prepared.later h.inner)))).block hblock
    simp only [readNode]
    refine (hn.bind fun n hn => hf.bind fun f hf => hl.bind fun l hl => hb.bind fun stmts hstmts =>
      .pure fun inLoop => ?_).congr ?_ ?_
    · rw [h.clean_loop (by decide)]
      simp [hn true, ← hf true, ← hl true, ← hstmts true, StmtNode.Legal]
    · simp [declarations_node]
    · simp [everywhere_readable]
  | forInStatement =>
    obtain ⟨name, more, rfl, hname, hmore⟩ := eq_cons h.grown.holds
    obtain ⟨source, block, rfl, hsource, hblock⟩ := eq_two hmore
    obtain ⟨_, _, _, parts, rfl⟩ := eq_node hname
    have hn := h.slot hV (by decide)
    have hs := (Prepared.first (Prepared.later h.inner)).expr hsource
    have hb := (Prepared.first (Prepared.later (Prepared.later h.inner))).block hblock
    simp only [readNode]
    refine (hn.bind fun n hn => hs.bind fun s hs => hb.bind fun stmts hstmts =>
      .pure fun inLoop => ?_).congr ?_ ?_
    · rw [h.clean_loop (by decide)]
      simp [hn true, ← hs true, ← hstmts true, StmtNode.Legal]
    · simp [declarations_node]
    · simp [everywhere_readable]
  | whileStatement =>
    obtain ⟨condition, block, rfl, hcondition, hblock⟩ := eq_two h.grown.holds
    have hc := (Prepared.first h.inner).expr hcondition
    have hb := (Prepared.first (Prepared.later h.inner)).block hblock
    simp only [readNode]
    refine (hc.bind fun e he => hb.bind fun stmts hstmts => .pure fun inLoop => ?_).congr ?_ ?_
    · rw [h.clean_loop (by decide)]
      simp [← he true, ← hstmts true, StmtNode.Legal]
    · simp [declarations_node]
    · simp [everywhere_readable]
  | tryExceptStatement =>
    obtain ⟨clauses, hts, hclauses⟩ := h.grown.holds
    obtain ⟨block, rest, rfl, hblock, hrest⟩ := eq_cons hts
    have hb := (Prepared.first h.inner).block hblock
    rw [← hrest] at hclauses
    have hr := readHandlers_checks hV fun t ht => ⟨Prepared.later h.inner t ht, rule_of_map hclauses t ht⟩
    simp only [readNode]
    refine (hb.bind fun stmts hstmts => hr.bind fun handlers hhandlers =>
      .pure fun inLoop => ?_).congr ?_ ?_
    · simp [clean_node, loops, ← hstmts inLoop, ← hhandlers inLoop, StmtNode.Legal]
    · rw [declarations_node (by decide), declarations_cons _ rest, List.append_nil]
    · simp [everywhere_readable]
  | breakStatement =>
    obtain rfl := h.leaf rfl
    simp only [readNode]
    refine (Checks.pure fun inLoop => ?_).congr ?_ ?_
    · rw [legal_some, clean_exit (by decide)]
      exact Iff.rfl
    · simp [declarations_node]
    · simp [everywhere_readable]
  | continueStatement =>
    obtain rfl := h.leaf rfl
    simp only [readNode]
    refine (Checks.pure fun inLoop => ?_).congr ?_ ?_
    · rw [legal_some, clean_exit (by decide)]
      exact Iff.rfl
    · simp [declarations_node]
    · simp [everywhere_readable]
  | returnStatement =>
    rcases h.grown.holds with hts | hts
    · obtain rfl := List.map_eq_nil_iff.mp hts
      simp only [readNode]
      refine (Checks.pure fun inLoop => ?_).congr ?_ ?_
      · simp [clean_node, loops, StmtNode.Legal]
      · simp [declarations_node]
      · simp [everywhere_readable]
    · obtain ⟨e, rfl, he⟩ := eq_one hts
      have hexpr := (Prepared.first h.inner).expr he
      simp only [readNode]
      refine (hexpr.bind fun e he => .pure fun inLoop => ?_).congr ?_ ?_
      · simp [clean_node, loops, StmtNode.Legal, ← he inLoop]
      · simp [declarations_node]
      · simp [everywhere_readable]
  | letStatement =>
    rcases h.grown.holds with hts | hts
    · obtain ⟨name, rfl, hname⟩ := eq_one hts
      obtain ⟨_, _, _, parts, rfl⟩ := eq_node hname
      obtain ⟨hd, hn⟩ := h.declared hV
      simp only [readNode]
      refine (hd.bind fun n _ => .pure fun inLoop => ?_).congr ?_ ?_
      · rw [legal_some, clean_node (by decide), cleanIn_cons]
        exact iff_of_true ⟨trivial, trivial, trivial⟩ ⟨hn.2.2 inLoop, cleanIn_nil⟩
      · rw [declarations_let, hn.1]
        rfl
      · simp [everywhere_readable, hn.2.1]
    · obtain ⟨name, e, rfl, hname, he⟩ := eq_two hts
      obtain ⟨_, _, _, parts, rfl⟩ := eq_node hname
      obtain ⟨hd, hn⟩ := h.declared hV
      have hexpr := (Prepared.first (Prepared.later h.inner)).expr he
      simp only [readNode]
      refine (hd.bind fun n _ => hexpr.bind fun e he => .pure fun inLoop => ?_).congr ?_ ?_
      · rw [legal_some, clean_node (by decide), cleanIn_cons, cleanIn_cons, and_iff_right (hn.2.2 inLoop),
          and_iff_left cleanIn_nil, ← he inLoop]
        exact (and_iff_right trivial).trans (and_iff_right trivial)
      · rw [declarations_let, declarations_cons_cons, hn.1]
        simp
      · simp [everywhere_readable, hn.2.1]
  | exprStatement =>
    rcases h.grown.holds with hts | hts
    · obtain rfl := List.map_eq_nil_iff.mp hts
      simp only [readNode]
      refine (Checks.pure fun inLoop => ?_).congr ?_ ?_
      · simp [clean_node, loops]
      · simp [declarations_node]
      · simp [everywhere_readable]
    · obtain ⟨e, rfl, he⟩ := eq_one hts
      have hexpr := (Prepared.first h.inner).expr he
      simp only [readNode]
      refine (hexpr.bind fun e he => .pure fun inLoop => ?_).congr ?_ ?_
      · simp [clean_node, loops, StmtNode.Legal, ← he inLoop]
      · simp [declarations_node]
      · simp [everywhere_readable]
  | _ => exact absurd hr (by decide)

/-- A statement, if it is not empty. -/
theorem readStatement_checks (hV : V.card ≤ UInt16.size) (h : Prepared V customErrors t)
    (hr : t.rule ∈ statementKinds) :
    Checks V customErrors (readStatement t) (declarations [t]) (Everywhere (Readable customErrors) t)
      fun stmt => ∀ inLoop, ((∀ s ∈ stmt, s.Legal inLoop) ↔ Clean inLoop t) := by
  obtain ⟨r, line, column, text, ts⟩ := t
  simp only [readStatement]
  refine ((readNode_checks hV h hr).bind fun node hnode => .pure fun inLoop => ?_).congr ?_ ?_
  · rw [← hnode inLoop]
    cases node with
    | none => exact iff_of_true nofun nofun
    | some node => simp [Stmt.Legal]
  · rw [List.append_nil]
  · rw [and_true]

theorem readStatements_checks (hV : V.card ≤ UInt16.size)
    (h : ∀ t ∈ ts, Prepared V customErrors t ∧ t.rule = .statement) :
    Checks V customErrors (readStatements ts) (declarations ts) (EverywhereIn (Readable customErrors) ts)
      fun stmts => ∀ inLoop, (Stmt.LegalIn inLoop stmts ↔ CleanIn inLoop ts) := by
  induction ts with
  | nil =>
    refine (Checks.pure fun inLoop => ?_).iff (iff_of_true trivial everywhereIn_nil)
    exact iff_of_true trivial cleanIn_nil
  | cons t rest ih =>
    obtain ⟨⟨hstatement, hrule⟩, hrest⟩ := List.forall_mem_cons.mp h
    obtain ⟨l, c, x, parts, rfl⟩ := eq_node hrule
    obtain ⟨kind, hkind, hmem⟩ := hstatement.grown.holds
    obtain ⟨inner, rfl, hinner⟩ := eq_one hkind
    have htaken := readStatement_checks hV (Prepared.first hstatement.inner) (hinner ▸ hmem)
    have hclean (inLoop : Bool) :
        CleanIn inLoop (.node .statement l c x [inner] :: rest) ↔
          Clean inLoop inner ∧ CleanIn inLoop rest := by
      rw [cleanIn_cons, clean_node (by decide), cleanIn_cons, and_iff_left cleanIn_nil]
    have hall : Checks V customErrors (readStatements (.node .statement l c x [inner] :: rest))
        (declarations [inner] ++ declarations rest)
        (Everywhere (Readable customErrors) inner ∧ EverywhereIn (Readable customErrors) rest)
        fun stmts => ∀ inLoop, (Stmt.LegalIn inLoop stmts ↔
          CleanIn inLoop (.node .statement l c x [inner] :: rest)) := by
      unfold readStatements
      refine htaken.bind fun stmt hstmt => ?_
      -- What is read of the statement comes before the others, unless it is empty.
      cases stmt with
      | none =>
        refine (ih hrest).imp fun stmts hstmts inLoop => ?_
        rw [hclean, ← hstmts inLoop, ← hstmt inLoop]
        exact (and_iff_right nofun).symm
      | some s =>
        refine ((ih hrest).bind fun stmts hstmts => .pure fun inLoop => ?_).congr ?_ ?_
        · rw [hclean, ← hstmts inLoop, ← hstmt inLoop]
          exact and_congr_left' (by simp)
        · rw [List.append_nil]
        · rw [and_true]
    refine hall.congr ?_ ?_
    · rw [declarations_cons _ rest, declarations_node (r := .statement) (by decide)]
    · rw [everywhereIn_cons, everywhere_readable (by decide), everywhereIn_cons,
        and_iff_left everywhereIn_nil]

/-! ## Whole blocks -/

/-- A block is taken if those inside are. -/
theorem block_taken (hV : V.card ≤ UInt16.size)
    (hgrown : Legible V (.node .statements line column text ts))
    (hin : ∀ t ∈ ts, Prepared V customErrors t) :
    BlockTaken V customErrors (.node .statements line column text ts) := by
  intro _
  have hrules : ∀ t ∈ ts, t.rule = .statement := rule_of_map hgrown.grown.holds
  simp only [readBlock]
  refine ((readStatements_checks hV fun t ht => ⟨hin t ht, hrules t ht⟩).congr ?_ ?_).imp
    fun stmts hstmts inLoop => ?_
  · rw [declarations_node (by decide)]
  · rw [everywhere_readable (by decide)]
  · rw [hstmts inLoop, clean_node (by decide)]

mutual

/-- Every block in a tree of the grammar is taken. -/
theorem Vetted.prepared (hV : V.card ≤ UInt16.size) {t : Tree Rule} (h : Vetted V customErrors t) :
    Prepared V customErrors t := by
  match t with
  | .node r line column text ts =>
    have hin : ∀ t ∈ ts, Prepared V customErrors t := Vetted.preparedIn hV h.inner
    refine ⟨h, everywhere_node.mpr ⟨?_, everywhereIn_iff.mpr fun t ht => (hin t ht).blocks⟩⟩
    intro hr
    obtain rfl : r = .statements := hr
    exact block_taken hV h.toLegible hin rfl

theorem Vetted.preparedIn (hV : V.card ≤ UInt16.size) {ts : List (Tree Rule)}
    (h : ∀ t ∈ ts, Vetted V customErrors t) : ∀ t ∈ ts, Prepared V customErrors t := by
  match ts with
  | [] => exact nofun
  | t :: ts =>
    obtain ⟨ht, hts⟩ := List.forall_mem_cons.mp h
    exact List.forall_mem_cons.mpr ⟨ht.prepared hV, Vetted.preparedIn hV hts⟩

end

end

end Lineage.Script
