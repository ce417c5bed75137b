/-
  Lineage.Proofs.Script.PrintedScripts

  A script that is printed is read as itself.

  The tokens of a printed script are none that the grammar would skip as blanks, and its
  statements are read up to the end of the text.  Where all variables of the script fit in
  16 bits they get the same slot only if they have the same name.
-/
import Lineage.Proofs.Script.PrintedStmts

namespace Lineage.Script

open Grammar Rules

/-! ## Printed tokens are no blanks -/

/-- None of the tokens starts like a blank. -/
def AllSolid (ts : List String) : Prop := ∀ t ∈ ts, Solid t

section

variable {ν : Name → String} {customErrors : Bool} {t : String} {ts us : List String}
  {tss : List (List String)}

theorem AllSolid.nil : AllSolid [] := nofun

theorem AllSolid.cons (ht : Solid t) (hts : AllSolid ts) : AllSolid (t :: ts) :=
  List.forall_mem_cons.mpr ⟨ht, hts⟩

theorem AllSolid.append (hts : AllSolid ts) (hus : AllSolid us) : AllSolid (ts ++ us) :=
  List.forall_mem_append.mpr ⟨hts, hus⟩

/-- A fixed token before others. -/
theorem AllSolid.mark (ht : (t.toList.head?.any fun ch => !isSpace ch && ch != '/') = true)
    (hts : AllSolid ts) : AllSolid (t :: ts) :=
  .cons (.inr ht) hts

/-- A fixed token behind others. -/
theorem AllSolid.close (h : AllSolid ts) (ht : (t.toList.head?.any fun ch => !isSpace ch && ch != '/') = true) :
    AllSolid (ts ++ [t]) :=
  h.append (.mark ht .nil)

theorem AllSolid.enclose {weak : Bool} (h : AllSolid ts) : AllSolid (enclose weak ts) := by
  cases weak with
  | false => exact h
  | true => exact (AllSolid.mark (by decide) h).close (by decide)

theorem AllSolid.commas (h : ∀ ts ∈ tss, AllSolid ts) : AllSolid (commas tss) := by
  cases tss with
  | nil => exact .nil
  | cons ts tss =>
    rw [List.forall_mem_cons] at h
    refine h.1.append fun t ht => ?_
    obtain ⟨us, hus, ht⟩ := List.mem_flatMap.mp ht
    exact AllSolid.mark (by decide) (h.2 us hus) t ht

theorem solid_of_mem {chars : List Char} (h : ∃ ch ∈ chars, t.toList.head? = some ch)
    (hchars : chars.all (fun ch => !isSpace ch && ch != '/') = true) : Solid t := by
  obtain ⟨ch, hch, hhead⟩ := h
  refine .inr ?_
  rw [hhead]
  exact List.all_eq_true.mp hchars ch hch

theorem solid_of_isIdentifier (h : isIdentifier t = true) : Solid t :=
  solid_of_mem (isIdentifier_iff.mp h).1.head (by decide)

/-- A token that an expression can start with is none that is skipped. -/
theorem Opens.solid (h : Opens (t :: ts)) : Solid t := by
  rcases h with hmark | hconst | ⟨hident, -⟩
  · exact solid_of_mem hmark (by decide)
  · have hwords : ∀ kw ∈ constantWords,
        (kw.toList.head?.any fun ch => !isSpace ch && ch != '/') = true := by decide
    exact .inr (hwords t hconst)
  · exact solid_of_isIdentifier hident

theorem BinaryOp.solid (op : BinaryOp) : Solid op.symbol := by
  cases op with
  | div => exact .inl rfl
  | _ => exact .inr (by decide)

theorem UnaryOp.solid (op : UnaryOp) : Solid op.symbol := by
  cases op with
  | _ => exact .inr (by decide)

theorem AllSolid.nameTokens {name : Expr} (h : AllSolid ts) : AllSolid (nameTokens name ts) := by
  unfold Script.nameTokens
  split
  · rename_i s hname
    exact .cons (solid_of_isIdentifier (Expr.Reads.plainName_eq_some hname).2) .nil
  · exact (AllSolid.mark (by decide) h).close (by decide)

theorem AllSolid.callTokens {function : String} {args : List Arg} (hfunction : isIdentifier function = true)
    (h : AllSolid ts) : AllSolid (callTokens function args ts) := by
  unfold Script.callTokens
  split
  · refine .cons (.inr ?_) .nil
    rw [String.toList_append]
    rfl
  · exact (AllSolid.cons (solid_of_isIdentifier hfunction) (.mark (by decide) h)).close (by decide)

/-- The variables have names. -/
abbrev HasName (ν : Name → String) (n : Name) : Prop := isVariable (ν n) = true

theorem solid_name {n : Name} (h : HasName ν n) : Solid (ν n) :=
  solid_of_isIdentifier (isIdentifier_of_isVariable h)

mutual

/-- The tokens of an expression, by induction on it. -/
theorem Expr.solid : ∀ e : Expr, e.Printable → e.All (IsLiteral customErrors) (HasName ν) →
    AllSolid (e.tokens ν)
  | .assign target value, h, hall =>
    (Expr.solid target h.2.1 hall.1).append (.mark (by decide) (Expr.solid value h.2.2 hall.2))
  | .value _, _, hall => .cons (literal_opens hall).solid .nil
  | .var _, _, hall => .cons (solid_name hall) .nil
  | .binary op left right, h, hall =>
    (Expr.solid left h.1 hall.1).enclose.append (.cons op.solid (Expr.solid right h.2 hall.2).enclose)
  | .and left right, h, hall | .or left right, h, hall =>
    (Expr.solid left h.1 hall.1).enclose.append
      (.mark (by decide) (Expr.solid right h.2 hall.2).enclose)
  | .unary op operand, h, hall => .cons op.solid (Expr.solid operand h hall).enclose
  | .prop object property, h, hall =>
    (Expr.solid object h.1 hall.1).enclose.append
      (.mark (by decide) (Expr.solid property h.2 hall.2).nameTokens)
  | .call _ args, h, hall => .callTokens h.1.1 (.commas (Arg.solid args h.2 hall))
  | .verb object name args, h, hall =>
    (((Expr.solid object h.1 hall.1).enclose.append
      (.mark (by decide) (Expr.solid name h.2.1 hall.2.1).nameTokens)).append
      (.mark (by decide) (.commas (Arg.solid args h.2.2 hall.2.2)))).close (by decide)
  | .range base first last, h, hall =>
    (((Expr.solid base h.1 hall.1).enclose.append
      (.mark (by decide) (Expr.solid first h.2.1 hall.2.1))).append
      (.mark (by decide) (Expr.solid last h.2.2 hall.2.2))).close (by decide)
  | .cond condition consequence alternative, h, hall =>
    ((Expr.solid condition h.1 hall.1).enclose.append
      (.mark (by decide) (Expr.solid consequence h.2.1 hall.2.1))).append
      (.mark (by decide) (Expr.solid alternative h.2.2 hall.2.2))
  | .index base index, h, hall =>
    ((Expr.solid base h.1 hall.1).enclose.append
      (.mark (by decide) (Expr.solid index h.2 hall.2))).close (by decide)
  | .list items, h, hall =>
    (AllSolid.mark (by decide) (.commas (Arg.solid items h hall))).close (by decide)
  | .map entries, h, hall =>
    (AllSolid.mark (by decide) (.commas (Expr.entries_solid entries h hall))).close (by decide)
  | .scatter targets source, h, hall =>
    (AllSolid.mark (by decide) (.commas (Target.solid targets h.2.1 hall.1))).append
      (.mark (by decide) (.mark (by decide) (Expr.solid source h.2.2 hall.2)))

theorem Arg.solid : ∀ args : List Arg, Arg.PrintableIn args →
    Arg.AllIn (IsLiteral customErrors) (HasName ν) args → ∀ ts ∈ Arg.tokens ν args, AllSolid ts
  | [], _, _ => nofun
  | .item e :: rest, h, hall =>
    List.forall_mem_cons.mpr ⟨Expr.solid e h.1 hall.1, Arg.solid rest h.2 hall.2⟩
  | .splice e :: rest, h, hall =>
    List.forall_mem_cons.mpr ⟨.mark (by decide) (Expr.solid e h.1 hall.1), Arg.solid rest h.2 hall.2⟩

theorem Expr.entries_solid : ∀ entries : List (Expr × Expr), Expr.PrintableIn entries →
    Expr.AllIn (IsLiteral customErrors) (HasName ν) entries → ∀ ts ∈ Expr.entryTokens ν entries, AllSolid ts
  | [], _, _ => nofun
  | (key, value) :: rest, h, hall =>
    List.forall_mem_cons.mpr ⟨(Expr.solid key h.1 hall.1).append
      (.mark (by decide) (Expr.solid value h.2.1 hall.2.1)), Expr.entries_solid rest h.2.2 hall.2.2⟩

theorem Target.solid : ∀ targets : List Target, Target.PrintableIn targets →
    Target.AllIn (IsLiteral customErrors) (HasName ν) targets → ∀ ts ∈ Target.tokens ν targets, AllSolid ts
  | [], _, _ => nofun
  | .required _ :: rest, h, hall =>
    List.forall_mem_cons.mpr ⟨.cons (solid_name hall.1) .nil, Target.solid rest h hall.2⟩
  | .rest _ :: rest, h, hall | .optional _ none :: rest, h, hall =>
    List.forall_mem_cons.mpr ⟨.mark (by decide) (.cons (solid_name hall.1) .nil),
      Target.solid rest h hall.2⟩
  | .optional _ (some default) :: rest, h, hall =>
    List.forall_mem_cons.mpr ⟨.mark (by decide) (.cons (solid_name hall.1) (.mark (by decide)
      (Expr.solid default h.1 hall.2.1))), Target.solid rest h.2 hall.2.2⟩

end

theorem Codes.solid {codes : Codes} (h : codes.Printable ν)
    (hall : codes.All (IsLiteral customErrors) (HasName ν)) : AllSolid (codes.tokens ν) := by
  cases codes with
  | any => exact .mark (by decide) .nil
  | listed codes => exact .commas (Arg.solid codes h.2.2 hall)

mutual

/-- The tokens of a statement, by induction on it. -/
theorem StmtNode.solid : ∀ node : StmtNode, node.Printable ν →
    node.All (IsLiteral customErrors) (HasName ν) → AllSolid (node.tokens ν)
  | .branch arms none, h, hall =>
    ((Stmt.arms_solid arms h.2.1 hall.1 (by decide)).append .nil).close (by decide)
  | .branch arms (some last), h, hall =>
    ((Stmt.arms_solid arms h.2.1 hall.1 (by decide)).append
      (.mark (by decide) (Stmt.block_solid last h.2.2 hall.2))).close (by decide)
  | .forList _ source body, h, hall =>
    ((AllSolid.mark (by decide) (.cons (solid_name hall.1) (.mark (by decide) (.mark (by decide)
      (Expr.solid source h.1 hall.2.1))))).append
      (.mark (by decide) (Stmt.block_solid body h.2 hall.2.2))).close (by decide)
  | .forRange _ first last body, h, hall =>
    (((AllSolid.mark (by decide) (.cons (solid_name hall.1) (.mark (by decide) (.mark (by decide)
      (Expr.solid first h.1 hall.2.1))))).append
      (.mark (by decide) (Expr.solid last h.2.1 hall.2.2.1))).append
      (.mark (by decide) (Stmt.block_solid body h.2.2 hall.2.2.2))).close (by decide)
  | .while e body, h, hall =>
    ((AllSolid.mark (by decide) (.mark (by decide) (Expr.solid e h.1 hall.1))).append
      (.mark (by decide) (Stmt.block_solid body h.2 hall.2))).close (by decide)
  | .try body handlers, h, hall =>
    ((AllSolid.mark (by decide) (Stmt.block_solid body h.2.1 hall.1)).append
      (Handler.solid handlers h.2.2 hall.2)).close (by decide)
  | .break, _, _ | .continue, _, _ | .return none, _, _ =>
    .mark (by decide) (.mark (by decide) .nil)
  | .return (some e), h, hall => (AllSolid.mark (by decide) (Expr.solid e h hall)).close (by decide)
  | .expr e, h, hall => (Expr.solid e h hall).close (by decide)

theorem Stmt.block_solid : ∀ body : List Stmt, Stmt.PrintableIn ν body →
    Stmt.AllIn (IsLiteral customErrors) (HasName ν) body → AllSolid (Stmt.blockTokens ν body)
  | [], _, _ => .nil
  | .mk _ _ node :: rest, h, hall =>
    (StmtNode.solid node h.1 hall.1).append (Stmt.block_solid rest h.2 hall.2)

theorem Stmt.arms_solid : ∀ arms : List (Expr × List Stmt), Stmt.PrintableArms ν arms →
    Stmt.AllInArms (IsLiteral customErrors) (HasName ν) arms → ∀ {keyword : String},
      (keyword.toList.head?.any fun ch => !isSpace ch && ch != '/') = true →
        AllSolid (Stmt.armTokens ν keyword arms)
  | [], _, _, _, _ => .nil
  | (e, body) :: rest, h, hall, _, hkeyword =>
    ((AllSolid.mark hkeyword (.mark (by decide) (Expr.solid e h.1 hall.1))).append
      (.mark (by decide) (Stmt.block_solid body h.2.1 hall.2.1))).append
      (Stmt.arms_solid rest h.2.2 hall.2.2 (by decide))

theorem Handler.solid : ∀ handlers : List Handler, Handler.PrintableIn ν handlers →
    Handler.AllIn (IsLiteral customErrors) (HasName ν) handlers → AllSolid (Handler.tokens ν handlers)
  | [], _, _ => .nil
  | .mk none codes body :: rest, h, hall =>
    (((AllSolid.mark (by decide) .nil).append (.mark (by decide) (Codes.solid h.1 hall.2.1))).append
      (.mark (by decide) (Stmt.block_solid body h.2.1 hall.2.2.1))).append
      (Handler.solid rest h.2.2 hall.2.2.2)
  | .mk (some name) codes body :: rest, h, hall =>
    (((AllSolid.mark (by decide) (.cons (solid_name (hall.1 name rfl)) .nil)).append
      (.mark (by decide) (Codes.solid h.1 hall.2.1))).append
      (.mark (by decide) (Stmt.block_solid body h.2.1 hall.2.2.1))).append
      (Handler.solid rest h.2.2 hall.2.2.2)

end

end

/-! ## Slots and names -/

namespace Names

variable {V : Finset String} {ns : Names}

/-- A table can grow until all names of a list have a slot. -/
theorem Within.exists_full (h : ns.Within V) (names : List String) (hnames : ∀ name ∈ names, fold name ∈ V) :
    ∃ table, ns.Precedes table ∧ table.Within V ∧ ∀ name ∈ names, ∃ n, table.find? name = some n := by
  induction names generalizing ns with
  | nil => exact ⟨ns, .refl ns, h, nofun⟩
  | cons name names ih =>
    rw [List.forall_mem_cons] at hnames
    obtain ⟨hgrow, hfind⟩ := ns.intern_spec name
    obtain ⟨table, hmore, hwithin, hall⟩ := ih (h.intern hnames.1) hnames.2
    exact ⟨table, hgrow.trans hmore, hwithin,
      List.forall_mem_cons.mpr ⟨⟨_, find?_mono hmore hfind⟩, hall⟩⟩

/-- Names that are in a table have one slot exactly if they are equal in lower case. -/
theorem slot_eq_iff {a b : String} {m n : Name} (hwidth : ns.width ≤ UInt16.size)
    (ha : ns.find? a = some m) (hb : ns.find? b = some n) : ns.slot a = ns.slot b ↔ fold a = fold b := by
  constructor
  · intro h
    rw [slot_of_find? ha, slot_of_find? hb] at h
    exact find?_inj hwidth ha (h ▸ hb)
  · intro h
    rw [slot, slot, find?, find?, h]

end Names

/-! ## Scripts -/

section

variable {ν : Name → String} {V : Finset String} {customErrors : Bool} {statements : List Stmt}

theorem end_eats : Eats (.rule .endOfInput) [] [] (Rooted .endOfInput Bare) :=
  .rule rfl fun c hc => ⟨c, c, [], finish_takes hc, hc.calm _, hc, rfl⟩

/-- A printed script is in the grammar, and its statements are read. -/
theorem parse_printed {source : String} (h : Stmt.PrintableIn ν statements)
    (hall : Stmt.AllIn (IsLiteral customErrors) (Nameable ν V) statements)
    (htext : LaidOut (Stmt.blockTokens ν statements) source.toList) :
    ∃ c line column text t ts, (grammar.parse .program source.toList).2 =
        some (c, [.node .program line column text (t :: ts)]) ∧
      ResolvesTo V customErrors (readBlock t) (Stmt.recastIn id)
        fun table => Stmt.recastIn (slots ν table) statements := by
  have hsolid : AllSolid (Stmt.blockTokens ν statements) :=
    Stmt.block_solid statements h (Stmt.AllIn.imp (fun _ hv => hv) (fun _ hn => hn.1) statements hall)
  obtain ⟨c, hskip, hahead⟩ := ahead_of_laidOut (c := .start source.toList) hsolid htext
  have hstatements := block_eats (Stmt.readsBlock statements h hall [] closed_at_end)
  rw [List.append_nil] at hstatements
  obtain ⟨c₁, -, -, htakes, -, -, _, _, rfl, ⟨t, rfl, ht⟩, _, _, _, _, rfl, rfl⟩ :=
    (hstatements.seq end_eats) c hahead
  have hprogram := seq_takes (text_takes (show (Cursor.start source.toList).rest = [] ++ _ from rfl))
    hskip htakes
  exact ⟨c₁, _, _, _, t, _, parse_of_gives (rule_plants rfl hprogram), ht⟩

/-- **Printing is inverted by reading.**  A script of which every statement can be printed, laid out
with any gaps between its tokens, is read as itself, up to positions and slots; two of its variables
get one slot exactly if they have one name in lower case. -/
theorem read_printed (ν : Name → String) (customErrors : Bool) (used : Finset Name)
    (statements : List Stmt) (source : String) (hprintable : Stmt.PrintableIn ν statements)
    (hparts : Stmt.AllIn (IsLiteral customErrors) (· ∈ used) statements)
    (hnames : ∀ n ∈ used, isVariable (ν n) = true)
    (hfew : (GlobalName.texts.toFinset ∪ used.image fun n => Names.fold (ν n)).card ≤ UInt16.size)
    (htext : LaidOut (Stmt.blockTokens ν statements) source.toList) :
    ∃ tree f, SyntaxTree.read source customErrors = .ok tree ∧
      Stmt.recastIn id tree.statements = Stmt.recastIn f statements ∧
      ∀ m ∈ used, ∀ n ∈ used, f m = f n ↔ Names.fold (ν m) = Names.fold (ν n) := by
  have hinitial : Names.initial.Within
      (GlobalName.texts.toFinset ∪ used.image fun n => Names.fold (ν n)) :=
    ⟨by decide, fun text h =>
      Finset.mem_union_left _ (List.mem_toFinset.mpr (by simpa [Names.initial] using h))⟩
  have hknown : ∀ n ∈ used,
      Names.fold (ν n) ∈ GlobalName.texts.toFinset ∪ used.image fun n => Names.fold (ν n) :=
    fun n hn => Finset.mem_union_right _ (Finset.mem_image_of_mem _ hn)
  generalize GlobalName.texts.toFinset ∪ used.image (fun n => Names.fold (ν n)) = V at hfew hinitial hknown
  obtain ⟨c, line, column, text, t, ts, hparse, y, hy, hdrop⟩ := parse_printed hprintable
    (Stmt.AllIn.imp (fun _ hv => hv) (fun n hn => ⟨hnames n hn, hknown n hn⟩) statements hparts) htext
  obtain ⟨read, names, hrun, -, hwithin, hread⟩ := hy ⟨.initial, [], customErrors⟩ rfl hinitial
  -- Variables of `used` that do not occur in the script have no slot in the table that it leaves.
  obtain ⟨table, hgrow, htable, hfull⟩ := hwithin.exists_full (used.toList.map ν)
    (by simpa using hknown)
  have hslot : ∀ n ∈ used, ∃ k, table.find? (ν n) = some k := by simpa using hfull
  cases t with
  | node r line' column' text' parts =>
    refine ⟨_, slots ν table, read_of_parse hparse hrun, ?_, fun m hm n hn => ?_⟩
    · rw [hread table hgrow]
      exact hdrop table
    · obtain ⟨j, hj⟩ := hslot m hm
      obtain ⟨k, hk⟩ := hslot n hn
      exact Names.slot_eq_iff (htable.width_le.trans hfew) hj hk

end

/-- The tokens with a space behind each of them. -/
def spelled (ts : List String) : List Char := ts.flatMap fun t => t.toList ++ [' ']

theorem laidOut_spelled (ts : List String) : LaidOut ts (spelled ts) := by
  have hgap : Gap [' '] := ⟨.space rfl .nil, ' ', rfl, rfl⟩
  have hmore (ts : List String) : Spaced ts (' ' :: spelled ts) := by
    induction ts with
    | nil => exact .inr hgap
    | cons t ts ih => exact ⟨[' '], ' ' :: spelled ts, by simp [spelled], hgap, ih⟩
  cases ts with
  | nil => exact .nil
  | cons t ts => exact ⟨[], ' ' :: spelled ts, by simp [spelled], .nil, hmore ts⟩

theorem exists_laidOut (ts : List String) : ∃ source : String, LaidOut ts source.toList :=
  ⟨String.ofList (spelled ts), by rw [String.toList_ofList]; exact laidOut_spelled ts⟩

/-- A loop that sets a property, in which one variable is written in two ways. -/
def settingLoop : List Stmt :=
  [.mk 1 1 (.forList ⟨6⟩ (.list [.item (.value (.int 1)), .splice (.var ⟨7⟩)])
    [.mk 1 1 (.expr (.assign (.prop (.var ⟨6⟩) (.value (.str "name")))
      (.binary .sub (.unary .neg (.binary .add (.var ⟨6⟩) (.value (.int 2)))) (.unary .not (.var ⟨8⟩)))))])]

/-- The variables of the loop. -/
def settingVars : Finset Name := {⟨6⟩, ⟨7⟩, ⟨8⟩}

def settingName (n : Name) : String := if n = ⟨6⟩ then "x" else if n = ⟨7⟩ then "y" else "Y"

/-- What the loop is printed as. -/
def settingText : String := "for x in ( \x7b 1 , @ y \x7d ) x . name = - ( x + 2 ) - ! Y ; endfor "

/-- A loop is read as itself. -/
theorem read_printed_setting :
    Stmt.PrintableIn settingName settingLoop ∧
    Stmt.AllIn (IsLiteral false) (· ∈ settingVars) settingLoop ∧
    (∀ n ∈ settingVars, isVariable (settingName n) = true) ∧
    (GlobalName.texts.toFinset ∪ settingVars.image fun n => Names.fold (settingName n)).card ≤ UInt16.size ∧
    LaidOut (Stmt.blockTokens settingName settingLoop) settingText.toList ∧
    ∃ tree f, SyntaxTree.read settingText false = .ok tree ∧
      Stmt.recastIn id tree.statements = Stmt.recastIn f settingLoop ∧ f ⟨7⟩ = f ⟨8⟩ ∧ f ⟨6⟩ ≠ f ⟨7⟩ := by
  have hprintable : Stmt.PrintableIn settingName settingLoop := by
    simp [settingLoop, Stmt.PrintableIn, Stmt.Printable, StmtNode.Printable, Expr.Printable,
      Arg.PrintableIn, Expr.isPlace]
  have hparts : Stmt.AllIn (IsLiteral false) (· ∈ settingVars) settingLoop := by
    simp [settingLoop, settingVars, Stmt.AllIn, Stmt.All, StmtNode.All, Expr.All, Arg.AllIn, IsLiteral]
  have hnames : ∀ n ∈ settingVars, isVariable (settingName n) = true := by decide
  have hfew : (GlobalName.texts.toFinset ∪
      settingVars.image fun n => Names.fold (settingName n)).card ≤ UInt16.size :=
    (Finset.card_union_le _ _).trans ((Nat.add_le_add (List.toFinset_card_le _) Finset.card_image_le).trans
      (by decide))
  have htokens : settingText.toList = spelled (Stmt.blockTokens settingName settingLoop) := by decide +kernel
  have htext : LaidOut (Stmt.blockTokens settingName settingLoop) settingText.toList := by
    rw [htokens]
    exact laidOut_spelled _
  obtain ⟨tree, f, hread, htree, hslots⟩ := read_printed settingName false settingVars settingLoop
    settingText hprintable hparts hnames hfew htext
  have hy := hslots ⟨7⟩ (by decide) ⟨8⟩ (by decide)
  have hx := hslots ⟨6⟩ (by decide) ⟨7⟩ (by decide)
  refine ⟨hprintable, hparts, hnames, hfew, htext, tree, f, hread, htree, hy.mpr ?_,
    fun h => absurd (hx.mp h) ?_⟩
  · decide +kernel
  · decide +kernel

/-! ## Scripts that are lost -/

/-- A name of so many letters, and one more. -/
def longName (k : Nat) : String := String.ofList (List.replicate (k + 1) 'v')

theorem longName_toList (k : Nat) : (longName k).toList = List.replicate (k + 1) 'v' :=
  String.toList_ofList

theorem longName_ne {s : String} (h : s.toList.any (· != 'v') = true) (k : Nat) : longName k ≠ s := by
  rintro rfl
  obtain ⟨ch, hch, hne⟩ := List.any_eq_true.mp h
  rw [longName_toList] at hch
  exact bne_iff_ne.mp hne (List.eq_of_mem_replicate hch)

theorem longName_injective : Function.Injective longName := by
  intro j k h
  have := congrArg (fun s : String => s.toList.length) h
  simpa [longName_toList] using this

theorem longName_lower (k : Nat) : (longName k).toList.map Char.toLower = (longName k).toList := by
  rw [longName_toList, List.map_replicate]
  rfl

theorem isVariable_longName (k : Nat) : isVariable (longName k) = true := by
  have hwords : ∀ kw ∈ "any" :: Rules.keywords, kw.toList.any (· != 'v') = true := by decide
  have hothers {kw : String} (hkw : kw ∈ "any" :: Rules.keywords) : kw.toList ≠ (longName k).toList := fun heq =>
    longName_ne (hwords kw hkw) k (String.toList_inj.mp heq).symm
  rw [isVariable, isIdentifier, longName_lower]
  simp only [Bool.and_eq_true, List.all_eq_true, bne_iff_ne]
  refine ⟨⟨⟨⟨?_, fun ch hch => ?_⟩, fun kw hkw => hothers (List.mem_cons_of_mem _ hkw)⟩,
    (hothers List.mem_cons_self).symm⟩, ?_⟩
  · rw [longName_toList]
    rfl
  · rw [longName_toList] at hch
    rw [List.eq_of_mem_replicate hch]
    decide
  · rw [isCodeName, longName_toList, List.replicate_succ]
    rfl

theorem fold_longName (k : Nat) : Names.fold (longName k) = longName k := by
  rw [Names.fold, lower_of_isIdentifier (isIdentifier_of_isVariable (isVariable_longName k)),
    longName_lower, String.ofList_toList]

/-- Variables that are all different. -/
def crowd : List Name := (List.range 65535).map fun i => ⟨UInt16.ofNat i⟩

theorem mem_crowd {n : Name} : n ∈ crowd ↔ ∃ i < 65535, ⟨UInt16.ofNat i⟩ = n := by
  simp only [crowd, List.mem_map, List.mem_range]

theorem length_crowd : crowd.length = 65535 := by
  rw [crowd, List.length_map, List.length_range]

-- The list is too long to be evaluated.
attribute [local irreducible] crowd

/-- The first of them is bound from the start. -/
def crowdName (n : Name) : String :=
  match n.slot.toNat with
  | 0 => "this"
  | k + 1 => longName k

/-- The script that looks at each of some variables. -/
def lookingAt (names : List Name) : List Stmt := names.map fun n => .mk 1 1 (.expr (.var n))

section

variable {ν : Name → String} {f g : Name → Name} {C : Value → Prop} {N : Name → Prop} {names : List Name}

theorem lookingAt_printable : Stmt.PrintableIn ν (lookingAt names) := by
  induction names with
  | nil => trivial
  | cons n names ih => exact ⟨trivial, ih⟩

theorem lookingAt_all (h : ∀ n ∈ names, N n) : Stmt.AllIn C N (lookingAt names) := by
  induction names with
  | nil => trivial
  | cons n names ih =>
    rw [List.forall_mem_cons] at h
    exact ⟨h.1, ih h.2⟩

theorem lookingAt_recast (h : Stmt.recastIn f (lookingAt names) = Stmt.recastIn g (lookingAt names)) :
    ∀ n ∈ names, f n = g n := by
  induction names with
  | nil => nofun
  | cons n names ih =>
    simp only [lookingAt, List.map_cons, Stmt.recastIn, Stmt.recast, StmtNode.recast, Expr.recast,
      List.cons.injEq, Stmt.mk.injEq, StmtNode.expr.injEq, Expr.var.injEq, true_and] at h
    exact List.forall_mem_cons.mpr ⟨h.1, ih h.2⟩

end

/-- The text is not read as the script whose tokens it has, with one slot for variables of one name. -/
def Lost (used : Finset Name) (ν : Name → String) (statements : List Stmt) (source : String) : Prop :=
  ∀ tree f, SyntaxTree.read source true = .ok tree →
    Stmt.recastIn id tree.statements = Stmt.recastIn f statements →
      ¬ ∀ m ∈ used, ∀ n ∈ used, f m = f n ↔ Names.fold (ν m) = Names.fold (ν n)

/-- Variables of which two come to share a slot are lost. -/
theorem lookingAt_loses {ν : Name → String} {V : Finset String} {names : List Name}
    (hnames : ∀ n ∈ names, Nameable ν V n) (hinitial : Names.initial.Within V)
    (hcollide : ∀ table : Names, Names.initial.Precedes table → table.Within V →
      (∀ n ∈ names, ∃ k, table.find? (ν n) = some k) →
        ∃ m ∈ names, ∃ n ∈ names,
          slots ν table m = slots ν table n ∧ Names.fold (ν m) ≠ Names.fold (ν n)) :
    ∃ source : String, LaidOut (Stmt.blockTokens ν (lookingAt names)) source.toList ∧
      Lost names.toFinset ν (lookingAt names) source := by
  obtain ⟨source, htext⟩ := exists_laidOut (Stmt.blockTokens ν (lookingAt names))
  refine ⟨source, htext, fun tree f hread hrecast hslots => ?_⟩
  have hall : Stmt.AllIn (IsLiteral true) (Nameable ν V) (lookingAt names) := lookingAt_all hnames
  obtain ⟨c, line, column, text, t, ts, hparse, y, hy, hdrop⟩ :=
    parse_printed lookingAt_printable hall htext
  obtain ⟨read, ns, hrun, hgrow, hwithin, hresult⟩ := hy ⟨.initial, [], true⟩ rfl hinitial
  obtain ⟨table, hmore, htable, hfull⟩ := hwithin.exists_full (names.map ν)
    (by simpa using fun n hn => (hnames n hn).2)
  obtain ⟨m, hm, n, hn, hsame, hne⟩ := hcollide table (hgrow.trans hmore) htable (by simpa using hfull)
  cases t with
  | node r line' column' text' parts =>
    rw [read_of_parse hparse hrun] at hread
    cases hread
    have hagree := lookingAt_recast (hrecast.symm.trans ((congrArg _ (hresult table hmore)).trans (hdrop table)))
    have hsame' : f m = f n := by rw [hagree m hm, hagree n hn, hsame]
    exact hne ((hslots m (List.mem_toFinset.mpr hm) n (List.mem_toFinset.mpr hn)).mp hsame')

/-- The names of the variables bound from the start and of the others. -/
def crowdNames : Finset String := GlobalName.texts.toFinset ∪ (Finset.range 65534).image longName

theorem card_crowdNames : crowdNames.card = 65540 := by
  have hglobal : ∀ text ∈ GlobalName.texts, text.toList.any (· != 'v') = true := by decide
  rw [crowdNames, Finset.card_union_of_disjoint, Finset.card_image_of_injective _ longName_injective,
    Finset.card_range]
  · rfl
  · refine Finset.disjoint_left.mpr fun text htext himage => ?_
    obtain ⟨k, -, rfl⟩ := Finset.mem_image.mp himage
    exact longName_ne (hglobal _ (List.mem_toFinset.mp htext)) k rfl

/-- Every name but those of variables bound from the start stands for one of the crowd. -/
theorem crowd_named {text : String} (h : text ∈ crowdNames) :
    text ∈ GlobalName.texts ∨
      ∃ n ∈ crowd, crowdName n = text ∧ Names.fold text = text ∧ text ≠ "this" := by
  rcases Finset.mem_union.mp h with h | h
  · exact .inl (List.mem_toFinset.mp h)
  · obtain ⟨k, hk, rfl⟩ := Finset.mem_image.mp h
    rw [Finset.mem_range] at hk
    refine .inr ⟨⟨UInt16.ofNat (k + 1)⟩, mem_crowd.mpr ⟨k + 1, by omega, rfl⟩, ?_,
      fold_longName k, longName_ne (by decide) k⟩
    rw [crowdName, UInt16.toNat_ofNat_of_lt' (show k + 1 < 65536 by omega)]

theorem crowd_nameable : ∀ n ∈ crowd, Nameable crowdName crowdNames n := by
  intro n hn
  obtain ⟨i, hi, rfl⟩ := mem_crowd.mp hn
  rw [Nameable, crowdName, UInt16.toNat_ofNat_of_lt' (show i < 65536 by omega)]
  cases i with
  | zero => exact ⟨by decide, Finset.mem_union_left _ (by decide)⟩
  | succ k =>
    refine ⟨isVariable_longName k, ?_⟩
    rw [fold_longName]
    exact Finset.mem_union_right _ (Finset.mem_image_of_mem _ (Finset.mem_range.mpr (by omega)))

theorem crowd_initial : Names.initial.Within crowdNames :=
  ⟨by decide, fun text h =>
    Finset.mem_union_left _ (List.mem_toFinset.mpr (by simpa [Names.initial] using h))⟩

/-- In a table with all of these names two have one slot. -/
theorem crowd_collides {table : Names} (hinitial : Names.initial.Precedes table)
    (hwithin : table.Within crowdNames) (hfull : ∀ n ∈ crowd, ∃ k, table.find? (crowdName n) = some k) :
    ∃ m ∈ crowd, ∃ n ∈ crowd, slots crowdName table m = slots crowdName table n ∧
      Names.fold (crowdName m) ≠ Names.fold (crowdName n) := by
  obtain ⟨more, hmore⟩ := hinitial
  have hglobals : ∀ text ∈ GlobalName.texts, ∃ i < 6, table.texts[i]? = some text := by
    intro text htext
    obtain ⟨i, hi, rfl⟩ := List.getElem_of_mem htext
    refine ⟨i, hi, ?_⟩
    rw [hmore, Array.getElem?_append_left (by simpa [Names.initial] using hi)]
    simp [Names.initial]
  have hknown : ∀ text ∈ crowdNames, text ∈ table.texts := by
    intro text htext
    rcases crowd_named htext with hglobal | ⟨n, hn, rfl, hfold, -⟩
    · obtain ⟨i, -, hi⟩ := hglobals text hglobal
      exact Array.mem_of_getElem? hi
    · obtain ⟨k, hk⟩ := hfull n hn
      obtain ⟨i, hi, -, htext⟩ := Names.find?_eq_some hk
      rw [← hfold, ← htext]
      exact Array.getElem_mem hi
  have hsize : 65536 < table.texts.size := by
    have hcard : crowdNames.card ≤ table.texts.toList.toFinset.card :=
      Finset.card_le_card fun text htext =>
        List.mem_toFinset.mpr (Array.mem_toList_iff.mpr (hknown text htext))
    have hlength := List.toFinset_card_le table.texts.toList
    rw [card_crowdNames] at hcard
    rw [Array.length_toList] at hlength
    omega
  have hlast : table.texts[65536]? = some table.texts[65536] := Array.getElem?_eq_getElem hsize
  have honly {i : Nat} (hi : table.texts[i]? = some table.texts[65536]) : i = 65536 := by
    rw [← hlast, ← Array.getElem?_toList, ← Array.getElem?_toList] at hi
    exact ((List.getElem?_inj (by rwa [Array.length_toList]) hwithin.distinct).mp hi.symm).symm
  -- The name behind the last slot gets the number of that slot, which is that of the first one.
  rcases crowd_named (hwithin.known _ (Array.getElem_mem hsize)) with hglobal | ⟨n, hn, hname, hfold, hne⟩
  · obtain ⟨i, hlt, hi⟩ := hglobals _ hglobal
    have := honly hi
    omega
  · refine ⟨⟨0⟩, mem_crowd.mpr ⟨0, by omega, rfl⟩, n, hn, ?_, ?_⟩
    swap
    · rw [hname, hfold]
      exact hne.symm
    obtain ⟨k, hk⟩ := hfull n hn
    obtain ⟨i, hi, rfl, htext⟩ := Names.find?_eq_some hk
    have hfirst : table.find? "this" = some ⟨0⟩ :=
      Names.find?_mono ⟨more, hmore⟩ (show Names.initial.find? "this" = some ⟨0⟩ by decide +kernel)
    rw [hname, hfold] at htext
    have hi : i = 65536 := honly (by rw [← htext]; exact Array.getElem?_eq_getElem hi)
    rw [slots, slots, show crowdName ⟨0⟩ = "this" from rfl, Names.slot_of_find? hfirst,
      Names.slot_of_find? hk, hi]
    rfl

/-- A call of a function named `any` is lost as the first code of a clause; and of fewer than 65536
variables two may get one slot, as those bound from the start have slots too. -/
theorem printed_not_read :
    (∃ tree, SyntaxTree.read "try except ((any())) endtry" true = .ok tree ∧
      LaidOut (Stmt.blockTokens crowdName tree.statements) "try except ( any ( ) ) endtry ".toList ∧
      ∀ tree', SyntaxTree.read "try except ( any ( ) ) endtry " true ≠ .ok tree') ∧
    ∃ (ν : Name → String) (used : Finset Name) (statements : List Stmt), used.card < 65536 ∧
      Stmt.PrintableIn ν statements ∧ Stmt.AllIn (IsLiteral true) (· ∈ used) statements ∧
      (∀ n ∈ used, isVariable (ν n) = true) ∧ ∃ source : String,
        LaidOut (Stmt.blockTokens ν statements) source.toList ∧ Lost used ν statements source := by
  constructor
  · have htokens : (SyntaxTree.read "try except ((any())) endtry" true).toOption.map
        (fun tree => Stmt.blockTokens crowdName tree.statements) =
          some ["try", "except", "(", "any", "(", ")", ")", "endtry"] := by decide +kernel
    have hlost : (SyntaxTree.read "try except ( any ( ) ) endtry " true).toOption.isNone = true := by
      decide +kernel
    obtain ⟨tree, hread, htree⟩ := Option.map_eq_some_iff.mp htokens
    refine ⟨tree, ?_, htree ▸ laidOut_spelled _, fun tree' hread' => ?_⟩
    · cases hresult : SyntaxTree.read "try except ((any())) endtry" true with
      | error e =>
        rw [hresult] at hread
        cases hread
      | ok tree' =>
        rw [hresult] at hread
        cases hread
        rfl
    · rw [hread'] at hlost
      cases hlost
  · have hcard := List.toFinset_card_le crowd
    rw [length_crowd] at hcard
    exact ⟨crowdName, crowd.toFinset, lookingAt crowd, Nat.lt_of_le_of_lt hcard (by decide),
      lookingAt_printable, lookingAt_all fun n hn => List.mem_toFinset.mpr hn,
      fun n hn => (crowd_nameable n (List.mem_toFinset.mp hn)).1,
      lookingAt_loses crowd_nameable crowd_initial fun _ => crowd_collides⟩

end Lineage.Script
