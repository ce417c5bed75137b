/-
  Lineage.Proofs.Script.Reading

  The trees that the reader gives are sound.

  The table of names only grows while a script is read, so what is said of a part of
  the tree is said for every table that begins with the one after it (`Reads`).  A run of operators and operands is sound as soon as each of its pieces
  makes sound expressions of sound ones (`Piece.Good`); how they are put together does
  not matter.
-/
import Lineage.Proofs.Script.Parts
import Lineage.Script.Names
import Lineage.Script.Reader

namespace Lineage.Script

/-! ## Constants and names -/

/-- A constant as scripts spell them. -/
def Spelled : Value → Prop
  | .list _ | .map _ => False
  | .err e => e.message? = none
  | _ => True

/-- Constants that scripts can spell are equal only if they are the same. -/
theorem distinct_spelled : Distinct Spelled := by
  intro u v hu hv h
  have heq : u.order v = .eq := eq_of_beq h
  cases u <;> cases v <;> simp only [Value.order, Value.kind] at heq
  all_goals try cases heq
  case null.null => rfl
  case bool.bool => rw [Std.LawfulEqOrd.eq_of_compare heq]
  case int.int => rw [Std.LawfulEqOrd.eq_of_compare heq]
  case float.float => rw [Std.LawfulEqOrd.eq_of_compare heq]
  case str.str => rw [Std.LawfulEqOrd.eq_of_compare heq]
  case obj.obj => rw [Std.LawfulEqOrd.eq_of_compare heq]
  case list.list => exact hu.elim
  case map.map => exact hu.elim
  case err.err d e =>
    obtain ⟨code, message⟩ := d
    obtain ⟨code', message'⟩ := e
    obtain rfl : message = none := hu
    obtain rfl : message' = none := hv
    obtain rfl : code = code' := Std.LawfulEqOrd.eq_of_compare heq
    rfl

/-- A variable is the slot of some name. -/
abbrev Named (names : Names) (name : Name) : Prop := ∃ text, names.find? text = some name

/-- An expression whose constants can be spelled and whose variables have names. -/
abbrev Fine (names : Names) (e : Expr) : Prop := e.All Spelled (Named names)

/-! ## Reading parts -/

/-- What a part of the reader gives satisfies `P` for every table from the one after it on. -/
def Reads {α : Type} (x : Reading α) (P : Names → α → Prop) : Prop :=
  ∀ scope a scope', x scope = .ok (a, scope') → scope.names.Precedes scope'.names ∧
    ∀ names, scope'.names.Precedes names → P names a

namespace Reads

variable {α β : Type} {x : Reading α} {P : Names → α → Prop}

theorem pure {a : α} (h : ∀ names, P names a) : Reads (pure a) P := by
  intro _ b _ hrun
  cases hrun
  exact ⟨.refl _, fun names _ => h names⟩

theorem throw {e : CompileError} : Reads (throw e : Reading α) P :=
  fun _ a scope' hrun => nomatch (hrun : Except.error e = Except.ok (a, scope'))

theorem imp {Q : Names → α → Prop} (hx : Reads x P) (h : ∀ names a, P names a → Q names a) :
    Reads x Q := by
  intro scope a scope' hrun
  obtain ⟨hgrow, hP⟩ := hx scope a scope' hrun
  exact ⟨hgrow, fun names hnames => h names a (hP names hnames)⟩

theorem bind {f : α → Reading β} {Q : α → Names → β → Prop} (hx : Reads x P)
    (hf : ∀ a, Reads (f a) (Q a)) :
    Reads (x >>= f) fun names b => ∃ a, P names a ∧ Q a names b := by
  intro scope b scope' hrun
  have hbind : (x >>= f) scope = (x scope).bind fun r => f r.1 r.2 := rfl
  rw [hbind] at hrun
  cases h : x scope with
  | error e => rw [h] at hrun; cases hrun
  | ok r =>
    obtain ⟨a, scope₁⟩ := r
    rw [h] at hrun
    obtain ⟨hgrow₁, hP⟩ := hx scope a scope₁ h
    obtain ⟨hgrow₂, hQ⟩ := hf a scope₁ b scope' hrun
    refine ⟨hgrow₁.trans hgrow₂, fun names hnames => ⟨a, ?_, hQ names hnames⟩⟩
    exact hP names (hgrow₂.trans hnames)

/-- What is read last, made of what was read before. -/
theorem seq {f : α → Reading β} {Q : Names → β → Prop} (hx : Reads x P)
    (hf : ∀ a, Reads (f a) fun names b => P names a → Q names b) : Reads (x >>= f) Q :=
  (hx.bind hf).imp fun _ _ ⟨_, hP, hQ⟩ => hQ hP

theorem fails {a : CompileError} {f : α → Reading β} {Q : Names → β → Prop} :
    Reads ((MonadExcept.throw a : Reading α) >>= f) Q :=
  fun _ b scope' hrun => nomatch (hrun : Except.error a = Except.ok (b, scope'))

/-- Looking at what is known changes nothing. -/
theorem get_at {f : Scope → Reading β} {Q : Names → β → Prop}
    (hf : ∀ scope b scope', f scope scope = .ok (b, scope') →
      scope.names.Precedes scope'.names ∧ ∀ names, scope'.names.Precedes names → Q names b) :
    Reads (MonadState.get >>= f) Q := hf

theorem get {f : Scope → Reading β} {Q : Names → β → Prop} (hf : ∀ scope, Reads (f scope) Q) :
    Reads (MonadState.get >>= f) Q := .get_at fun scope => hf scope scope

end Reads

theorem slotOf_reads (name : String) : Reads (slotOf name) Named := by
  intro scope n scope' hrun
  cases hrun
  obtain ⟨hgrow, hfind⟩ := scope.names.intern_spec name
  exact ⟨hgrow, fun names hnames => ⟨name, Names.find?_mono hnames hfind⟩⟩

theorem badLiteral_reads {α : Type} {kind text why : String} {P : Names → α → Prop} :
    Reads (badLiteral kind text why) P := .throw

theorem readAtom_reads (rule : Rule) (text : String) : Reads (readAtom rule text) Fine := by
  unfold readAtom
  split
  · split
    · exact .pure fun _ => trivial
    · exact badLiteral_reads
  · split
    · exact .pure fun _ => trivial
    · exact badLiteral_reads
  · split
    · exact .pure fun _ => trivial
    · exact badLiteral_reads
  · split
    · exact .pure fun _ => trivial
    · exact badLiteral_reads
  · split
    · exact .throw
    · refine .get fun scope => ?_
      split
      · exact .throw
      · exact .pure fun _ => rfl
  · exact .pure fun _ => trivial
  · exact .pure fun _ => trivial
  · exact (slotOf_reads text).seq fun n => .pure fun _ h => h

/-! ## Runs -/

/-- A piece that makes sound expressions of sound ones. -/
def Piece.Good : Piece → Prop
  | .operand read => Reads read Fine
  | .before _ apply => ∀ e, Reads (apply e) fun names e' => Fine names e → Fine names e'
  | .between _ _ combine => ∀ names a b, Fine names a → Fine names b → Fine names (combine a b)
  | .after _ apply => Reads apply fun names f => ∀ e, Fine names e → Fine names (f e)

theorem attach_reads {base : Reading Expr} {apply : Reading (Expr → Expr)} (hbase : Reads base Fine)
    (happly : Reads apply fun names f => ∀ e, Fine names e → Fine names (f e)) :
    Reads (Reading.attach base apply) Fine := by
  intro scope e scope' hrun
  simp only [Reading.attach] at hrun
  split at hrun
  case h_1 left scope₁ hleft =>
    obtain ⟨hgrow₁, hfine⟩ := hbase scope left scope₁ hleft
    cases hf : apply scope₁ with
    | error e => rw [hf] at hrun; cases hrun
    | ok r =>
      obtain ⟨f, scope₂⟩ := r
      rw [hf] at hrun
      cases hrun
      obtain ⟨hgrow₂, hmake⟩ := happly scope₁ f scope₂ hf
      refine ⟨hgrow₁.trans hgrow₂, fun names hnames => ?_⟩
      exact hmake names hnames left (hfine names (hgrow₂.trans hnames))
  case h_2 => split at hrun <;> cases hrun

/-- What a run of good pieces is read as is sound, however it is put together. -/
theorem climb_extend_reads (fuel : Nat) :
    (∀ bound run, (∀ piece ∈ run, piece.Good) → Reads (climb fuel bound run).1 Fine ∧
      ∀ piece ∈ (climb fuel bound run).2, piece.Good) ∧
    ∀ bound left run, Reads left Fine → (∀ piece ∈ run, piece.Good) →
      Reads (extend fuel bound left run).1 Fine ∧
        ∀ piece ∈ (extend fuel bound left run).2, piece.Good := by
  have hdefault : Reads (pure default) Fine := .pure fun _ => trivial
  -- Both at once, on the fuel that they hand to each other.
  induction fuel with
  | zero =>
    constructor
    · intro bound run hrun
      simp only [climb]
      exact ⟨hdefault, hrun⟩
    · intro bound left run hleft hrun
      simp only [extend]
      exact ⟨hleft, hrun⟩
  | succ fuel ih =>
    obtain ⟨hclimb, hextend⟩ := ih
    constructor
    · intro bound run hrun
      cases run with
      | nil => simp only [climb]; exact ⟨hdefault, hrun⟩
      | cons piece rest =>
        obtain ⟨hpiece, hrest⟩ := List.forall_mem_cons.mp hrun
        cases piece with
        | operand read => simp only [climb]; exact hextend bound read rest hpiece hrest
        | before strength apply =>
          simp only [climb]
          obtain ⟨hoperand, hleft⟩ := hclimb (strength - 1) rest hrest
          exact hextend bound _ _ (hoperand.seq hpiece) hleft
        | between strength groupsRight combine => simp only [climb]; exact ⟨hdefault, hrun⟩
        | after strength apply => simp only [climb]; exact ⟨hdefault, hrun⟩
    · intro bound left run hleft hrun
      cases run with
      | nil => simp only [extend]; exact ⟨hleft, hrun⟩
      | cons piece rest =>
        obtain ⟨hpiece, hrest⟩ := List.forall_mem_cons.mp hrun
        cases piece with
        | operand read => simp only [extend]; exact ⟨hleft, hrun⟩
        | before strength apply => simp only [extend]; exact ⟨hleft, hrun⟩
        | between strength groupsRight combine =>
          simp only [extend]
          split
          · obtain ⟨hright, hmore⟩ :=
              hclimb (if groupsRight then strength - 1 else strength) rest hrest
            refine hextend bound _ _ ?_ hmore
            exact hleft.seq fun a => hright.seq fun b => .pure fun names hb ha => hpiece names a b ha hb
          · exact ⟨hleft, hrun⟩
        | after strength apply =>
          simp only [extend]
          split
          · exact hextend bound _ _ (attach_reads hleft hpiece) hrest
          · exact ⟨hleft, hrun⟩

theorem readAll_reads {run : List Piece} (h : ∀ piece ∈ run, piece.Good) :
    Reads (Piece.readAll run) Fine :=
  ((climb_extend_reads _).1 0 run h).1

theorem infixPiece_good {rule : Rule} {piece : Piece} (h : infixPiece? rule = some piece) :
    piece.Good := by
  cases rule <;> cases h
  all_goals exact fun _ _ _ ha hb => ⟨ha, hb⟩

/-! ## Expressions -/

mutual

theorem readExpr_reads (t : Tree Rule) : Reads (readExpr t) Fine := by
  match t with
  | .node _ _ _ _ parts =>
    simp only [readExpr]
    exact readAll_reads (pieces_good parts)

theorem pieces_good (parts : List (Tree Rule)) : ∀ p ∈ pieces parts, p.Good := by
  match parts with
  | [] =>
    simp only [pieces]
    exact fun p hp => absurd hp List.not_mem_nil
  | t :: rest =>
    simp only [pieces]
    exact List.forall_mem_cons.mpr ⟨piece_good t, pieces_good rest⟩

theorem piece_good (t : Tree Rule) : (piece t).Good := by
  match t with
  | .node rule line column text parts =>
    unfold piece
    split
    case h_1 => exact fun e => .pure fun _ h => h
    case h_2 => exact fun e => .pure fun _ h => h
    case h_3 =>
      intro source
      refine (readTargets_reads parts).seq fun ts => ?_
      split
      · exact .fails
      · exact .pure fun _ hts hsource => ⟨hts, hsource⟩
    case h_4 kind _ _ name _ => exact readAtom_reads kind _
    case h_5 e => exact readExpr_reads e
    case h_6 => exact .pure fun _ => ⟨trivial, trivial⟩
    case h_7 args => exact (readArglist_reads args).seq fun args => .pure fun _ h => h
    case h_8 => exact (readArglist_reads parts).seq fun args => .pure fun _ h => h
    case h_9 => exact (readEntries_reads parts).seq fun entries => .pure fun _ h => h
    case h_10 args =>
      exact (readArglist_reads args).seq fun args => .pure fun _ h object ho => ⟨ho, trivial, h⟩
    case h_11 name _ _ _ _ args =>
      exact (readExpr_reads name).seq fun name => (readArglist_reads args).seq fun args =>
        .pure fun _ ha hn object ho => ⟨ho, hn, ha⟩
    case h_12 => exact .pure fun _ object ho => ⟨ho, trivial⟩
    case h_13 name => exact (readExpr_reads name).seq fun name => .pure fun _ hn object ho => ⟨ho, hn⟩
    case h_14 index =>
      exact (readExpr_reads index).seq fun index => .pure fun _ hi base hb => ⟨hb, hi⟩
    case h_15 first last =>
      exact (readExpr_reads first).seq fun first => (readExpr_reads last).seq fun last =>
        .pure fun _ hl hf base hb => ⟨hb, hf, hl⟩
    case h_16 right =>
      exact (readExpr_reads right).seq fun right => .pure fun _ hr left hl => ⟨hl, hr⟩
    case h_17 consequence alternative =>
      exact (readExpr_reads consequence).seq fun c => (readExpr_reads alternative).seq fun a =>
        .pure fun _ ha hc condition h => ⟨h, hc, ha⟩
    case h_18 =>
      cases hinfix : infixPiece? rule with
      | none => exact .pure fun _ => trivial
      | some piece => exact infixPiece_good hinfix

theorem readArglist_reads (args : List (Tree Rule)) :
    Reads (readArglist args) fun names args => Arg.AllIn Spelled (Named names) args := by
  unfold readArglist
  split
  case h_1 args => exact readArgs_reads args
  case h_2 => exact .pure fun _ => trivial

theorem readArgs_reads (args : List (Tree Rule)) :
    Reads (readArgs args) fun names args => Arg.AllIn Spelled (Named names) args := by
  unfold readArgs
  split
  case h_1 text e rest =>
    refine (readExpr_reads e).seq fun e => (readArgs_reads rest).seq fun rest => .pure fun _ hr he => ?_
    split <;> exact ⟨he, hr⟩
  case h_2 => exact .pure fun _ => trivial

theorem readEntries_reads (entries : List (Tree Rule)) :
    Reads (readEntries entries) fun names entries => Expr.AllIn Spelled (Named names) entries := by
  unfold readEntries
  split
  case h_1 key value rest =>
    exact (readExpr_reads key).seq fun key => (readExpr_reads value).seq fun value =>
      (readEntries_reads rest).seq fun rest => .pure fun _ hr hv hk => ⟨hk, hv, hr⟩
  case h_2 => exact .pure fun _ => trivial

theorem readTargets_reads (targets : List (Tree Rule)) :
    Reads (readTargets targets) fun names targets =>
      Target.AllIn Spelled (Named names) targets := by
  match targets with
  | [] => exact .pure fun _ => trivial
  | t :: rest =>
    simp only [readTargets]
    refine (readTarget_reads t).seq fun target => (readTargets_reads rest).seq fun rest =>
      .pure fun _ hr ht => ?_
    cases target with
    | required name => exact ⟨ht.1, hr⟩
    | rest name => exact ⟨ht.1, hr⟩
    | optional name default =>
      cases default with
      | none => exact ⟨ht.1, hr⟩
      | some e => exact ⟨ht.1, ht.2.1, hr⟩

theorem readTarget_reads (t : Tree Rule) :
    Reads (readTarget t) fun names target => Target.AllIn Spelled (Named names) [target] := by
  unfold readTarget
  split
  case h_1 name _ default =>
    exact (slotOf_reads _).seq fun n => (readExpr_reads default).seq fun e =>
      .pure fun _ he hn => ⟨hn, he, trivial⟩
  case h_2 => exact (slotOf_reads _).seq fun n => .pure fun _ hn => ⟨hn, trivial⟩
  case h_3 => exact (slotOf_reads _).seq fun n => .pure fun _ hn => ⟨hn, trivial⟩
  case h_4 => exact (slotOf_reads _).seq fun n => .pure fun _ hn => ⟨hn, trivial⟩

end

/-! ## Statements -/

theorem declare_reads (name : String) : Reads (declare name) Named := by
  refine (slotOf_reads name).seq fun n => .get_at fun scope m scope' hrun => ?_
  split at hrun
  · exact nomatch (hrun : Except.error _ = Except.ok (m, scope'))
  · cases hrun
    exact ⟨.refl _, fun _ _ h => h⟩

mutual

theorem readStatements_reads (statements : List (Tree Rule)) :
    Reads (readStatements statements) fun names stmts => Stmt.AllIn Spelled (Named names) stmts := by
  unfold readStatements
  split
  case h_1 => exact .pure fun _ => trivial
  case h_2 inner rest =>
    refine (readStatement_reads inner).seq fun stmt => ?_
    cases stmt with
    | none => exact (readStatements_reads rest).imp fun _ _ h _ => h
    | some stmt =>
      exact (readStatements_reads rest).seq fun rest => .pure fun _ hr hs => ⟨hs stmt rfl, hr⟩
  case h_3 _ rest _ => exact readStatements_reads rest

theorem readBlock_reads (block : Tree Rule) :
    Reads (readBlock block) fun names stmts => Stmt.AllIn Spelled (Named names) stmts := by
  match block with
  | .node _ _ _ _ statements =>
    simp only [readBlock]
    exact readStatements_reads statements

theorem readStatement_reads (t : Tree Rule) :
    Reads (readStatement t) fun names stmt =>
      ∀ s, stmt = some s → Stmt.All Spelled (Named names) s := by
  match t with
  | .node rule line column _ parts =>
    simp only [readStatement]
    refine (readNode_reads rule parts).seq fun node => .pure fun names h s hs => ?_
    obtain ⟨node, rfl, rfl⟩ := Option.map_eq_some_iff.mp hs
    exact h node rfl

theorem readNode_reads (rule : Rule) (parts : List (Tree Rule)) :
    Reads (readNode rule parts) fun names node =>
      ∀ n, node = some n → StmtNode.All Spelled (Named names) n := by
  have give {names : Names} {node : StmtNode} (h : StmtNode.All Spelled (Named names) node) :
      ∀ n, some node = some n → StmtNode.All Spelled (Named names) n := by
    rintro n ⟨⟩
    exact h
  unfold readNode
  split
  case h_1 e => exact (readExpr_reads e).seq fun e => .pure fun _ he => give he
  case h_2 condition block clauses =>
    refine (readExpr_reads condition).seq fun c => (readBlock_reads block).seq fun b =>
      (readClauses_reads clauses).seq fun ⟨arms, otherwise⟩ => .pure fun _ hr hb hc => give ?_
    cases otherwise with
    | none => exact ⟨⟨hc, hb, hr.1⟩, trivial⟩
    | some body => exact ⟨⟨hc, hb, hr.1⟩, hr.2 body rfl⟩
  case h_3 condition block =>
    exact (readExpr_reads condition).seq fun c => (readBlock_reads block).seq fun b =>
      .pure fun _ hb hc => give ⟨hc, hb⟩
  case h_4 source block =>
    exact (slotOf_reads _).seq fun n => (readExpr_reads source).seq fun e =>
      (readBlock_reads block).seq fun b => .pure fun _ hb he hn => give ⟨hn, he, hb⟩
  case h_5 first last block =>
    exact (slotOf_reads _).seq fun n => (readExpr_reads first).seq fun f =>
      (readExpr_reads last).seq fun l => (readBlock_reads block).seq fun b =>
      .pure fun _ hb hl hf hn => give ⟨hn, hf, hl, hb⟩
  case h_6 block clauses =>
    exact (readBlock_reads block).seq fun b => (readHandlers_reads clauses).seq fun hs =>
      .pure fun _ hh hb => give ⟨hb, hh⟩
  case h_7 => exact .pure fun _ => give trivial
  case h_8 => exact .pure fun _ => give trivial
  case h_9 e => exact (readExpr_reads e).seq fun e => .pure fun _ he => give he
  case h_10 => exact .pure fun _ => give trivial
  case h_11 e =>
    exact (declare_reads _).seq fun n => (readExpr_reads e).seq fun e =>
      .pure fun _ he hn => give ⟨hn, he⟩
  case h_12 => exact (declare_reads _).seq fun n => .pure fun _ hn => give ⟨hn, trivial⟩
  case h_13 => exact .pure fun _ n hn => nomatch hn

theorem readClauses_reads (clauses : List (Tree Rule)) :
    Reads (readClauses clauses) fun names r => Stmt.AllInArms Spelled (Named names) r.1 ∧
      ∀ body, r.2 = some body → Stmt.AllIn Spelled (Named names) body := by
  unfold readClauses
  split
  case h_1 condition block rest =>
    exact (readExpr_reads condition).seq fun c => (readBlock_reads block).seq fun b =>
      (readClauses_reads rest).seq fun r => .pure fun _ hr hb hc => ⟨⟨hc, hb, hr.1⟩, hr.2⟩
  case h_2 block _ =>
    refine (readBlock_reads block).seq fun b => .pure fun _ hb => ⟨trivial, ?_⟩
    rintro _ ⟨⟩
    exact hb
  case h_3 => exact .pure fun _ => ⟨trivial, fun _ h => nomatch h⟩

theorem readHandlers_reads (handlers : List (Tree Rule)) :
    Reads (readHandlers handlers) fun names hs => Handler.AllIn Spelled (Named names) hs := by
  unfold readHandlers
  split
  case h_1 codes block rest =>
    refine (slotOf_reads _).seq fun n => (readCodes_reads codes).seq fun c =>
      (readBlock_reads block).seq fun b => (readHandlers_reads rest).seq fun hs =>
      .pure fun _ hh hb hc hn => ⟨?_, hc, hb, hh⟩
    rintro _ ⟨⟩
    exact hn
  case h_2 codes block rest =>
    exact (readCodes_reads codes).seq fun c => (readBlock_reads block).seq fun b =>
      (readHandlers_reads rest).seq fun hs =>
      .pure fun _ hh hb hc => ⟨(fun _ h => nomatch h), hc, hb, hh⟩
  case h_3 => exact .pure fun _ => trivial

theorem readCodes_reads (codes : Tree Rule) :
    Reads (readCodes codes) fun names c => Codes.All Spelled (Named names) c := by
  unfold readCodes
  split
  case h_1 args => exact (readArgs_reads args).seq fun args => .pure fun _ h => h
  case h_2 => exact .pure fun _ => trivial

end

/-- The variables bound from the start come first in the table of a script, and every variable in
the script has a name in it. -/
theorem SyntaxTree.named_of_read {source : String} {customErrors : Bool} {tree : SyntaxTree}
    (h : SyntaxTree.read source customErrors = .ok tree) :
    Names.initial.Precedes tree.names ∧ Stmt.AllIn Spelled (Named tree.names) tree.statements := by
  unfold SyntaxTree.read at h
  extract_lets text at h
  generalize grammar.parse .program text = parsed at h
  split at h
  case h_1 => cases h
  case h_2 trees =>
    split at h
    case h_1 statements _ =>
      cases hrun : (readStatements statements).run ⟨.initial, [], customErrors⟩ with
      | error e => rw [hrun] at h; cases h
      | ok r =>
        obtain ⟨stmts, scope⟩ := r
        rw [hrun] at h
        cases h
        obtain ⟨hgrow, hall⟩ := readStatements_reads statements _ stmts scope hrun
        exact ⟨hgrow, hall _ (.refl _)⟩
    case h_2 =>
      cases h
      exact ⟨.refl _, trivial⟩

/-- What is read is sound, if its variables fit in 16 bits. -/
theorem SyntaxTree.sound_of_read {source : String} {customErrors : Bool} {tree : SyntaxTree}
    (h : SyntaxTree.read source customErrors = .ok tree) (hwidth : tree.names.width ≤ UInt16.size) :
    tree.Sound := by
  refine ⟨Spelled, distinct_spelled, Stmt.AllIn.imp (fun _ hv => hv) ?_ _ (named_of_read h).2⟩
  rintro n ⟨text, hfind⟩
  exact Names.find?_lt hfind hwidth

end Lineage.Script
