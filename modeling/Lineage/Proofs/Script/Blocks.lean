/-
  Lineage.Proofs.Script.Blocks

  Which variables the trees of a script introduce, and which loops their exits leave.

  Both are said in `Flaws` by a walk over all trees.  Here they are taken apart along the
  grammar: a statement brings what its parts bring (`declarations_node`, `clean_node`), a
  loop forgives what its body needs a loop for (`clean_loop`), and an expression brings
  nothing (`Legible.quiet`).
-/
import Lineage.Proofs.Script.ExprChecking

namespace Lineage.Script

/-- `break` and `continue` are only in loops of the tree itself. -/
def Looped (t : Tree Rule) : Prop :=
  ∀ u ∈ unlooped t, u.rule ≠ .breakStatement ∧ u.rule ≠ .continueStatement

/-- The same for the parts of a tree, which may be those of a loop. -/
def LoopedIn (loop : Bool) (ts : List (Tree Rule)) : Prop :=
  ∀ u ∈ unloopedIn loop ts, u.rule ≠ .breakStatement ∧ u.rule ≠ .continueStatement

/-- Nothing is wrong with a tree that the generator would find, in a loop or in none. -/
def Clean (inLoop : Bool) (t : Tree Rule) : Prop := Everywhere Proper t ∧ (inLoop = true ∨ Looped t)

def CleanIn (inLoop : Bool) (ts : List (Tree Rule)) : Prop :=
  EverywhereIn Proper ts ∧ (inLoop = true ∨ LoopedIn false ts)

/-- The rules of statements and of what holds statements. -/
def stmtRules : List Rule :=
  [.program, .statements, .statement, .ifStatement, .elseifClause, .elseClause, .forRangeStatement,
    .forInStatement, .whileStatement, .tryExceptStatement, .exceptClause, .breakStatement,
    .continueStatement, .returnStatement, .letStatement, .exprStatement]

section

variable {V : Finset String} {r : Rule} {line column : Nat} {text : List Char} {t : Tree Rule}
  {ts us : List (Tree Rule)} {loop inLoop : Bool}

/-! ## Declarations -/

@[simp] theorem declarations_nil : declarations [] = [] := rfl

theorem declarations_cons (t : Tree Rule) (ts : List (Tree Rule)) :
    declarations (t :: ts) = declarations [t] ++ declarations ts := by
  simp only [declarations, Tree.nodesIn, List.append_nil, List.filterMap_append]

@[simp] theorem declarations_cons_cons {u : Tree Rule} :
    declarations (t :: u :: ts) = declarations [t] ++ declarations (u :: ts) :=
  declarations_cons t (u :: ts)

theorem declarations_node (h : r ≠ .letStatement) :
    declarations [.node r line column text ts] = declarations ts := by
  simp only [declarations, Tree.nodesIn, Tree.nodes, List.append_nil]
  exact List.filterMap_cons_none (if_neg h)

/-- What a `let` introduces. -/
theorem declarations_let {l c : Nat} {name : List Char} {parts : List (Tree Rule)} :
    declarations [.node .letStatement line column text (.node .ident l c name parts :: ts)] =
      Names.fold (String.ofList name) :: declarations (.node .ident l c name parts :: ts) := by
  simp only [declarations, Tree.nodesIn, Tree.nodes, List.append_nil]
  exact List.filterMap_cons_some rfl

/-! ## Loops -/

@[simp] theorem loopedIn_nil : LoopedIn loop [] := nofun

theorem loopedIn_cons :
    LoopedIn loop (t :: ts) ↔ (loop = true ∧ t.rule = .statements ∨ Looped t) ∧ LoopedIn loop ts := by
  rw [LoopedIn, unloopedIn, List.forall_mem_append]
  refine and_congr_left' ?_
  cases hbody : loop && t.rule == .statements with
  | true =>
    rw [Bool.and_eq_true, beq_iff_eq] at hbody
    exact iff_of_true nofun (.inl hbody)
  | false =>
    rw [← Bool.not_eq_true, Bool.and_eq_true, beq_iff_eq] at hbody
    exact (or_iff_right hbody).symm

theorem looped_node : Looped (.node r line column text ts) ↔
    (r ≠ .breakStatement ∧ r ≠ .continueStatement) ∧ LoopedIn (r ∈ loops) ts := by
  rw [Looped, unlooped, List.forall_mem_cons]
  exact Iff.rfl

@[simp] theorem cleanIn_nil : CleanIn inLoop [] := ⟨everywhereIn_nil, .inr loopedIn_nil⟩

@[simp] theorem cleanIn_cons : CleanIn inLoop (t :: ts) ↔ Clean inLoop t ∧ CleanIn inLoop ts := by
  rw [CleanIn, everywhereIn_cons, loopedIn_cons, Clean, CleanIn]
  cases inLoop with
  | true => simp
  | false =>
    simp only [Bool.false_eq_true, false_and, false_or]
    exact and_and_and_comm

/-- A statement that is no loop is as clean as its parts. -/
theorem clean_node
    (h : r ∉ Rule.breakStatement :: .continueStatement :: .builtinCall :: .expr :: loops) :
    Clean inLoop (.node r line column text ts) ↔ CleanIn inLoop ts := by
  simp only [List.mem_cons, not_or] at h
  obtain ⟨hbreak, hcontinue, hcall, hexpr, hloop⟩ := h
  rw [Clean, everywhere_proper (by simp [hcall, hexpr]), looped_node, decide_eq_false hloop]
  exact and_congr_right fun _ => or_congr_right (and_iff_right ⟨hbreak, hcontinue⟩)

/-- A loop is left only from inside. -/
theorem clean_exit (h : r ∈ [Rule.breakStatement, .continueStatement]) :
    Clean inLoop (.node r line column text []) ↔ inLoop = true := by
  have hexits : ∀ r ∈ [Rule.breakStatement, .continueStatement], r ∉ [Rule.builtinCall, .expr] ∧
      ¬ (r ≠ .breakStatement ∧ r ≠ .continueStatement) := by
    decide
  obtain ⟨hplain, hexit⟩ := hexits r h
  rw [Clean, everywhere_proper hplain, and_iff_right everywhereIn_nil, looped_node]
  exact or_iff_left fun h => hexit h.1

/-- The body of a loop may be left, from anywhere in it. -/
theorem clean_loop (h : r ∈ loops) (hts : ∀ t ∈ ts, t.rule = .statements ∨ Looped t) :
    Clean inLoop (.node r line column text ts) ↔ CleanIn true ts := by
  have hloops : ∀ r ∈ loops, r ∉ [Rule.builtinCall, .expr] ∧ r ≠ .breakStatement ∧
      r ≠ .continueStatement := by
    decide
  obtain ⟨hplain, hbreak, hcontinue⟩ := hloops r h
  have hlooped : LoopedIn true ts := by
    induction ts with
    | nil => exact loopedIn_nil
    | cons t ts ih =>
      obtain ⟨ht, hts⟩ := List.forall_mem_cons.mp hts
      exact loopedIn_cons.mpr ⟨ht.imp (⟨rfl, ·⟩) id, ih hts⟩
  rw [Clean, everywhere_proper hplain, looped_node, decide_eq_true h]
  exact and_congr_right fun _ => iff_of_true (.inr ⟨⟨hbreak, hcontinue⟩, hlooped⟩) (.inl rfl)

/-! ## Expressions -/

/-- What is inside an expression is no statement. -/
theorem Rule.Holds.inner {rs : List Rule} (h : r.Holds rs) (hr : r ∉ stmtRules) :
    ∀ r' ∈ rs, r' ∉ stmtRules := by
  have hrun : ∀ r, r ∈ Rules.prefixOps ∨ r ∈ Rules.primaries ∨ r ∈ Rules.postfixOps ∨
      r ∈ Rules.infixOps → r ∉ stmtRules := by
    intro r
    cases r <;> decide
  cases r with
  | expr => exact fun r' hr' => hrun r' (Rule.InRun.mem h r' hr')
  | scatterAssign =>
    have htargets : ∀ r ∈ targetRules, r ∉ stmtRules := by decide
    exact fun r' hr' => htargets r' (h r' hr')
  | atom =>
    obtain ⟨kind, rfl, hkind⟩ := h
    have hkinds : ∀ r ∈ [Rule.float, .integer, .string, .object, .errorCode, .boolean, .nullValue,
        .ident], r ∉ stmtRules := by
      decide
    exact List.forall_mem_singleton.mpr (hkinds kind hkind)
  | map =>
    intro r' hr'
    rw [h.1 r' hr']
    decide
  | exprlist =>
    intro r' hr'
    rw [h r' hr']
    decide
  | _ => first
    | exact absurd (by decide) hr
    | obtain rfl := h
      decide
    | rcases h with rfl | rfl <;> decide

mutual

theorem Legible.stmtless {t : Tree Rule} (h : Legible V t) (hr : t.rule ∉ stmtRules) :
    Everywhere (fun u => u.rule ∉ stmtRules) t := by
  match t with
  | .node r line column text ts =>
    have hrules := rule_of_map (h.grown.holds.inner hr)
    exact everywhere_node.mpr ⟨hr, Legible.stmtlessIn fun t ht => ⟨h.inner t ht, hrules t ht⟩⟩

theorem Legible.stmtlessIn {ts : List (Tree Rule)} (h : ∀ t ∈ ts, Legible V t ∧ t.rule ∉ stmtRules) :
    EverywhereIn (fun u => u.rule ∉ stmtRules) ts := by
  match ts with
  | [] => exact everywhereIn_nil
  | t :: ts =>
    obtain ⟨⟨ht, hr⟩, hts⟩ := List.forall_mem_cons.mp h
    exact everywhereIn_cons.mpr ⟨ht.stmtless hr, Legible.stmtlessIn hts⟩

end

mutual

theorem mem_nodes_of_unlooped {u : Tree Rule} : ∀ {t : Tree Rule}, u ∈ unlooped t → u ∈ t.nodes
  | .node r line column text ts, h => by
    rw [unlooped] at h
    rw [Tree.nodes]
    rcases List.mem_cons.mp h with rfl | h
    · exact List.mem_cons_self
    · exact List.mem_cons_of_mem _ (mem_nodesIn_of_unlooped h)

theorem mem_nodesIn_of_unlooped {u : Tree Rule} {loop : Bool} :
    ∀ {ts : List (Tree Rule)}, u ∈ unloopedIn loop ts → u ∈ Tree.nodesIn ts
  | [], h => h
  | t :: ts, h => by
    rw [unloopedIn] at h
    rw [Tree.nodesIn]
    rcases List.mem_append.mp h with h | h
    · split at h
      · exact absurd h List.not_mem_nil
      · exact List.mem_append_left _ (mem_nodes_of_unlooped h)
    · exact List.mem_append_right _ (mem_nodesIn_of_unlooped h)

end

/-- An expression introduces no variable and leaves no loop. -/
theorem Legible.quiet (h : Legible V t) (hr : t.rule ∉ stmtRules) :
    declarations [t] = [] ∧ Looped t := by
  have hrules := h.stmtless hr
  constructor
  · rw [declarations, List.filterMap_eq_nil_iff]
    intro u hu
    rw [Tree.nodesIn, Tree.nodesIn, List.append_nil] at hu
    refine if_neg fun hlet => hrules u hu ?_
    rw [hlet]
    decide
  · intro u hu
    have hmem := hrules u (mem_nodes_of_unlooped hu)
    constructor
    · intro hbreak
      exact hmem (hbreak ▸ by decide)
    · intro hcontinue
      exact hmem (hcontinue ▸ by decide)

/-- A loop is as clean as its parts are in a loop. -/
theorem Legible.clean_loop (h : Legible V (.node r line column text ts)) (hr : r ∈ loops) :
    Clean inLoop (.node r line column text ts) ↔ CleanIn true ts := by
  have hparts : ∀ r' ∈ ts.map Tree.rule, r' = .statements ∨ r' ∉ stmtRules := by
    have hholds := h.grown.holds
    simp only [loops, List.mem_cons, List.not_mem_nil, or_false] at hr
    rcases hr with rfl | rfl | rfl
    all_goals
      rw [hholds]
      decide
  refine Script.clean_loop hr fun t ht => ?_
  exact (rule_of_map hparts t ht).imp id fun hquiet => ((h.inner t ht).quiet hquiet).2

end

end Lineage.Script
