/-
  Lineage.Proofs.Script.PrintedExprs

  Printed expressions are read back.

  An expression is printed as a run in which the weaker operands stand in parentheses, so it is
  read as one operand of whatever operators stand around it (`Expr.Reads`).  Its constructors are
  gone through one by one, and what is between commas item by item (`Items`).
-/
import Lineage.Proofs.Script.PrintedRuns

namespace Lineage.Script

open Grammar Rules

/-! ## Strengths -/

/-- How strong the operator behind an expression may be without taking a part of it. -/
def Expr.reach : Expr → Nat
  | .scatter _ _ => Strength.assignment - 1
  | .or _ _ => Strength.either
  | .and _ _ => Strength.both
  | .binary op _ _ => if op.groupsRight then op.strength - 1 else op.strength
  | .unary _ _ => Strength.sign - 1
  | _ => Strength.access

section

variable {e : Expr}

theorem Expr.assignment_le_strength (e : Expr) : Strength.assignment ≤ e.strength := by
  cases e with
  | binary op => cases op <;> exact Nat.le_of_ble_eq_true rfl
  | _ => exact Nat.le_of_ble_eq_true rfl

theorem Expr.strength_le_reach (e : Expr) : e.strength ≤ e.reach + 1 := by
  cases e with
  | binary op => cases op <;> exact Nat.le_of_ble_eq_true rfl
  | _ => exact Nat.le_of_ble_eq_true rfl

/-- The strengths of infix operators, and whether these take their operands from the right. -/
def groupings : List (Nat × Bool) :=
  [(Strength.either, false), (Strength.both, false), (Strength.equality, false),
   (Strength.relation, false), (Strength.membership, false), (Strength.sum, false),
   (Strength.product, false), (Strength.power, true)]

/-- An operand on the left that needs no parentheses gives nothing to its operator. -/
theorem Expr.left_reach {x : Nat × Bool} (hx : x ∈ groupings)
    (h : x.1 + (if x.2 then 1 else 0) ≤ e.strength) : x.1 ≤ e.reach := by
  have hbinary (op : BinaryOp) : ∀ x ∈ groupings, x.1 + (if x.2 then 1 else 0) ≤ op.strength →
      x.1 ≤ if op.groupsRight then op.strength - 1 else op.strength := by
    cases op <;> decide
  have hunary : ∀ x ∈ groupings, x.1 ≤ Strength.sign - 1 ∧ x.1 ≤ Strength.access := by decide
  have hweak : ∀ x ∈ groupings, Strength.assignment < x.1 := by decide
  cases e with
  | binary op => exact hbinary op x hx h
  | unary => exact (hunary x hx).1
  | and | or => exact (Nat.le_add_right _ _).trans h
  | scatter => exact absurd h (Nat.not_le_of_gt (Nat.lt_add_right _ (hweak x hx)))
  | _ => exact (hunary x hx).2

/-- A base that needs no parentheses gives nothing to an operator behind it. -/
theorem Expr.access_le_reach (h : Strength.access ≤ e.strength) : Strength.access ≤ e.reach := by
  have hbinary (op : BinaryOp) : op.strength < Strength.access := by cases op <;> decide
  cases e with
  | binary op => exact absurd h (Nat.not_le_of_gt (hbinary op))
  | and | or | unary | scatter => exact absurd h (Nat.not_le_of_gt (Nat.le_of_ble_eq_true rfl))
  | _ => exact Nat.le_refl _

theorem Expr.strength_of_isPlace (h : e.isPlace = true) : e.strength = Strength.access := by
  cases e <;> first
    | rfl
    | cases h

end

/-! ## What follows an expression -/

/-- The tokens behind an expression are not taken for a part of it.  An assignment or a conditional
ends with an expression that takes whatever operators follow, so behind one there must be none. -/
structure Follows (e : Expr) (b : List String) : Prop where
  uncalled : Refuses (lit "(") b
  unset : e.isPlace = false → Refuses setSign b
  ended : e.strength ≤ Strength.conditional → ExprEnd b

section

variable {e : Expr} {t : String} {b : List String}

theorem ExprEnd.follows (h : ExprEnd b) : Follows e b := ⟨h.uncalled, fun _ => h.unset.seq, fun _ => h⟩

theorem Follows.of_strong (hstrong : Strength.conditional < e.strength) (hcall : Refuses (lit "(") b)
    (hset : Refuses setSign b) : Follows e b :=
  ⟨hcall, fun _ => hset, fun h => absurd h (Nat.not_le_of_gt hstrong)⟩

theorem Follows.symbol {x : String × Rule} (h : x ∈ infixTokens)
    (hstrong : Strength.conditional < e.strength) : Follows e (x.1 :: b) :=
  .of_strong hstrong (infix_unchained h).2.1 (infix_unchained h).2.2

/-- The tokens that start postfix operators, but for assignments. -/
def suffixes : List String := ["[", ":", ".", "?"]

theorem Follows.suffix (h : t ∈ suffixes) (hstrong : Strength.conditional < e.strength) :
    Follows e (t :: b) := by
  have hmarks : ∀ t ∈ suffixes, declines (fun _ => false) t.toList 4 (lit "(") = true ∧
      declines (fun _ => false) t.toList 4 setSign = true := by decide
  exact .of_strong hstrong (.of_declines 4 (hmarks t h).1) (.of_declines 4 (hmarks t h).2)

end

/-! ## First tokens -/

/-- What may stand behind a word inside of an expression. -/
def connectors : List String := "(" :: "=" :: suffixes ++ infixTokens.map Prod.fst

/-- How an expression starts: with a mark, a constant, or an identifier. -/
def Opens : List String → Prop
  | [] => False
  | t :: ts => (∃ ch ∈ exprMarks, t.toList.head? = some ch) ∨ t ∈ constantWords ∨
      isIdentifier t = true ∧ (t.toList.map Char.toLower = ['a', 'n', 'y'] → t = "any") ∧
        ∀ u, ts.head? = some u → u ∈ connectors

section

variable {ν : Name → String} {N : Name → Prop} {customErrors : Bool} {ts us : List String} {u : String}

theorem Opens.append (h : Opens ts) (hu : u ∈ connectors) : Opens (ts ++ u :: us) := by
  cases ts with
  | nil => exact h.elim
  | cons t ts =>
    refine h.imp_right (.imp_right fun ⟨hident, hany, hnext⟩ => ⟨hident, hany, fun x hx => ?_⟩)
    cases ts with
    | nil =>
      cases hx
      exact hu
    | cons t' ts => exact hnext x hx

theorem Opens.enclose {weak : Bool} (h : Opens ts) (hu : u ∈ connectors) :
    Opens (enclose weak ts ++ u :: us) := by
  cases weak with
  | false => exact h.append hu
  | true => exact .inl ⟨'(', by decide, rfl⟩

theorem symbol_mem (op : BinaryOp) : ∃ x ∈ infixTokens, x.1 = op.symbol := by
  cases op <;> decide

theorem symbol_mem_connectors (op : BinaryOp) : op.symbol ∈ connectors := by
  cases op <;> decide

theorem literal_opens {v : Value} (h : IsLiteral customErrors v) : Opens [v.literal] := by
  have hwritable : v.Writable := by
    cases v with
    | int n =>
      rintro rfl
      exact absurd (show 0 ≤ Int64.minValue.toInt from h) (by decide)
    | err e => exact h.2.1
    | float | list | map => exact h.elim
    | _ => trivial
  rcases Value.literal_shape hwritable with ⟨kw, hkw, htext⟩ | ⟨e, rfl⟩ | ⟨ch, hch, hhead⟩
  · exact .inr (.inl (htext ▸ hkw))
  · refine .inr (.inr ⟨isIdentifier_of_spellable h.2.1, fun hany => ?_, nofun⟩)
    obtain ⟨word, -, -, hname, -⟩ := ErrorCode.Spellable.read h.2.1
    rw [Value.literal, hname] at hany
    cases hany
  · have hmarks : signStarts ⊆ exprMarks := by decide
    exact .inl ⟨ch, hmarks hch, hhead⟩

theorem lower_of_isIdentifier {t : String} (h : isIdentifier t = true) :
    Text.lower t.toList = t.toList.map Char.toLower :=
  Text.lowerAfter_ascii (fun ch hch => identChar_lt ((isIdentifier_iff.mp h).1.chars ch hch)) []

theorem call_opens {function : String} {args : List Arg} (hident : isIdentifier function = true)
    (hlower : Text.lower function.toList = function.toList) :
    Opens (callTokens function args ts) := by
  rw [callTokens]
  split
  · exact .inl ⟨'$', by decide, by rw [String.toList_append]; rfl⟩
  · refine .inr (.inr ⟨hident, fun hany => ?_, fun u hu => ?_⟩)
    · rw [← lower_of_isIdentifier hident, hlower] at hany
      exact String.toList_inj.mp hany
    · cases hu
      decide

/-- Every expression starts in one of these ways, by induction on its leftmost parts. -/
theorem expr_opens : ∀ e : Expr, e.Printable → e.All (IsLiteral customErrors) N →
    (∀ n, N n → isVariable (ν n) = true) → Opens (e.tokens ν)
  | .assign target _, h, hall, hν => (expr_opens target h.2.1 hall.1 hν).append (by decide)
  | .value _, _, hall, _ => literal_opens hall
  | .var name, _, hall, hν => by
    have hname := hν name hall
    refine .inr (.inr ⟨isIdentifier_of_isVariable hname, fun hany => ?_, nofun⟩)
    rw [isVariable, hany, Bool.and_eq_true, Bool.and_eq_true] at hname
    cases hname.1.2
  | .binary op left _, h, hall, hν =>
    (expr_opens left h.1 hall.1 hν).enclose (symbol_mem_connectors op)
  | .and left _, h, hall, hν => (expr_opens left h.1 hall.1 hν).enclose (by decide)
  | .or left _, h, hall, hν => (expr_opens left h.1 hall.1 hν).enclose (by decide)
  | .unary op _, _, _, _ => by
    cases op with
    | neg => exact .inl ⟨'-', by decide, rfl⟩
    | not => exact .inl ⟨'!', by decide, rfl⟩
  | .prop object _, h, hall, hν => (expr_opens object h.1 hall.1 hν).enclose (by decide)
  | .call _ _, h, _, _ => call_opens h.1.1 h.1.2
  | .verb object _ _, h, hall, hν => by
    simp only [Expr.tokens, List.append_assoc, List.cons_append]
    exact (expr_opens object h.1 hall.1 hν).enclose (by decide)
  | .range base _ _, h, hall, hν => by
    simp only [Expr.tokens, List.append_assoc, List.cons_append]
    exact (expr_opens base h.1 hall.1 hν).enclose (by decide)
  | .cond condition _ _, h, hall, hν => by
    simp only [Expr.tokens, List.append_assoc, List.cons_append]
    exact (expr_opens condition h.1 hall.1 hν).enclose (by decide)
  | .index base _, h, hall, hν => by
    simp only [Expr.tokens, List.append_assoc, List.cons_append]
    exact (expr_opens base h.1 hall.1 hν).enclose (by decide)
  | .list _, _, _, _ => .inl ⟨'\x7b', by decide, rfl⟩
  | .map _, _, _, _ => .inl ⟨'[', by decide, rfl⟩
  | .scatter _ _, _, _, _ => .inl ⟨'\x7b', by decide, rfl⟩

/-- The first character of an expression. -/
theorem Opens.first (h : Opens ts) {c : Cursor} (hc : Ahead (ts ++ us) c) :
    ∃ ch ∈ exprMarks ++ letters, c.rest.head? = some ch := by
  cases ts with
  | nil => exact h.elim
  | cons t ts =>
    obtain ⟨-, tail, hrest, -⟩ := hc
    have hhead {ch : Char} (ht : t.toList.head? = some ch) : c.rest.head? = some ch := by
      rw [hrest, List.head?_append, ht]
      rfl
    rcases h with ⟨ch, hch, ht⟩ | hconst | ⟨hident, -⟩
    · exact ⟨ch, List.mem_append_left _ hch, hhead ht⟩
    · have hwords : ∀ kw ∈ constantWords, (kw.toList.head?.any (exprMarks ++ letters).contains) = true := by
        decide
      obtain ⟨ch, ht, hch⟩ := (Option.any_eq_true _ _).mp (hwords t hconst)
      exact ⟨ch, List.contains_iff_mem.mp hch, hhead ht⟩
    · obtain ⟨ch, hch, ht⟩ := (isIdentifier_iff.mp hident).1.head
      exact ⟨ch, List.mem_append_right _ hch, hhead ht⟩

theorem Opens.text_fails (h : Opens ts) {x : Char} {chars : List Char}
    (hx : x ∉ exprMarks ++ letters) {s : Setting} {c : Cursor} (hc : Ahead (ts ++ us) c) :
    Fails grammar s (.text (x :: chars)) c := by
  obtain ⟨ch, hch, hhead⟩ := h.first hc
  refine Grammar.text_fails fun hx' => hx ?_
  rw [hhead] at hx'
  cases hx'
  exact hch

/-- No equals sign starts an expression. -/
theorem Opens.unset (h : Opens ts) : Eats (.notAhead (lit "=")) (ts ++ us) (ts ++ us) Bare :=
  fun c hc => ⟨c, c, [], notAhead_takes (h.text_fails (by decide) hc), hc.calm _, hc, rfl⟩

end

/-! ## Items between commas -/

section

variable {V : Finset String} {customErrors : Bool} {α : Type} {p : Pattern Rule}
  {read : List (Tree Rule) → Reading (List α)} {ts b : List String} {tss : List (List String)}
  {y : Names → List α}

/-- Each item is taken by the pattern up to what ends an expression, and they are read one after the
other. -/
inductive Items (V : Finset String) (customErrors : Bool) {α : Type} (p : Pattern Rule)
    (read : List (Tree Rule) → Reading (List α)) : List (List String) → (Names → List α) → Prop
  | nil : Items V customErrors p read [] fun _ => []
  | cons {ts : List String} {tss : List (List String)} {a : Names → α} {y : Names → List α}
      (h : ∀ b, ExprEnd b → Eats p (ts ++ b) b fun us => ∀ vs z, Resolves V customErrors (read vs) z →
        Resolves V customErrors (read (us ++ vs)) fun table => a table :: z table)
      (hmore : Items V customErrors p read tss y) :
      Items V customErrors p read (ts :: tss) fun table => a table :: y table

theorem ExprEnd.more (hb : ExprEnd b) (tss : List (List String)) :
    ExprEnd (tss.flatMap ("," :: ·) ++ b) := by
  cases tss with
  | nil => exact hb
  | cons ts tss => exact exprEnd_of_closer (by decide)

namespace Items

theorem repeated (h : Items V customErrors p read tss y) (hnil : read [] = pure []) (hb : ExprEnd b)
    (hcomma : Refuses (lit ",") b) : Loops (.all [lit ",", p]) (tss.flatMap ("," :: ·) ++ b) b
      fun us => Resolves V customErrors (read us) y := by
  induction h with
  | nil =>
    refine (Loops.stop hcomma.seq).imp ?_
    rintro _ rfl
    rw [hnil]
    exact .pure []
  | @cons ts tss a y h _ ih =>
    have hitem := (Eats.lit "," _).skip (h _ (hb.more tss))
    rw [List.flatMap_cons, List.cons_append, List.cons_append, List.append_assoc]
    refine (Loops.more hitem ih).imp ?_
    rintro _ ⟨us, vs, rfl, hus, hvs⟩
    exact hus vs y hvs

/-- At least one item. -/
theorem separated (h : Items V customErrors p read (ts :: tss) y) (hnil : read [] = pure [])
    (hb : ExprEnd b) (hcomma : Refuses (lit ",") b) :
    Eats (commaSeparated p) (commas (ts :: tss) ++ b) b fun us => Resolves V customErrors (read us) y := by
  cases h with
  | @cons ts tss a y h hmore =>
    rw [commas, List.append_assoc]
    refine ((h _ (hb.more tss)).seq (.star (hmore.repeated hnil hb hcomma))).imp ?_
    rintro _ ⟨us, vs, rfl, hus, hvs⟩
    exact hus vs y hvs

end Items

theorem Refuses.comma {t : String} (h : t ∈ [")", "]", "\x7d"]) : Refuses (lit ",") (t :: b) := by
  have hmarks : ∀ t ∈ [")", "]", "\x7d"], declines (fun _ => false) t.toList 4 (lit ",") = true := by
    decide
  exact .of_declines 4 (hmarks t h)

end

/-! ## Arguments -/

section

variable {V : Finset String} {customErrors : Bool} {tss : List (List String)} {b : List String} {t : String}
  {y : Names → List Arg}

/-- Arguments between brackets, if there are any. -/
theorem args_eat (h : Items V customErrors (.rule .argument) readArgs tss y) (ht : t ∈ [")", "\x7d"]) :
    Eats (.opt (.rule .exprlist)) (commas tss ++ t :: b) (t :: b)
      fun us => Resolves V customErrors (readArglist us) y := by
  have hclosers : ∀ t ∈ [")", "\x7d"], t ∈ closers ∧ t ∈ [")", "]", "\x7d"] ∧
      declines (fun _ => false) t.toList 40 (.rule .exprlist) = true := by decide
  obtain ⟨hcloser, hcomma, hnone⟩ := hclosers t ht
  cases tss with
  | nil =>
    refine (Eats.opt_none (.of_declines 40 hnone)).imp ?_
    rintro _ rfl
    cases h
    exact .pure []
  | cons ts tss =>
    have hlist := h.separated rfl (exprEnd_of_closer hcloser) (.comma hcomma (b := b))
    refine (Eats.opt (.rule (r := .exprlist) rfl hlist)).imp ?_
    rintro _ ⟨line, column, text, us, rfl, hus⟩
    exact hus

theorem arglist_eats (h : Items V customErrors (.rule .argument) readArgs tss y) :
    Eats (.rule .arglist) ("(" :: commas tss ++ ")" :: b) b
      (Rooted .arglist fun us => Resolves V customErrors (readArglist us) y) :=
  .rule rfl ((Eats.lit "(" _).skip ((args_eat h (by decide)).close (.lit ")" b)))

end

/-! ## Operators -/

/-- The slots of variables in a table of their names. -/
def slots (ν : Name → String) (table : Names) (n : Name) : Name := table.slot (ν n)

/-- The tokens of an expression are read as it, with the slots that its variables have in the table. -/
def Expr.Reads (ν : Name → String) (V : Finset String) (customErrors : Bool) (e : Expr) : Prop :=
  ∀ b, Follows e b → Segment V customErrors e.strength e.reach (fun table => e.recast (slots ν table))
    (e.tokens ν) b

namespace Expr.Reads

variable {ν : Name → String} {V : Finset String} {customErrors : Bool} {e left right : Expr}
  {level reach : Nat} {b : List String}

/-- An expression by itself. -/
theorem expr (h : e.Reads ν V customErrors) (hb : ExprEnd b) :
    Eats Rules.expr (e.tokens ν ++ b) b (IsExpr V customErrors fun table => e.recast (slots ν table)) :=
  (h b hb.follows).expr (Nat.lt_of_lt_of_le (by decide) e.assignment_le_strength) hb.unchained hb.unjoined

/-- An operand, which stands in parentheses if it is weaker than its place. -/
theorem operand (h : e.Reads ν V customErrors) {place : Nat} (hlevel : level ≤ place)
    (hreach : place ≤ e.strength → reach ≤ e.reach) (hb : place ≤ e.strength → Follows e b) :
    Segment V customErrors level reach (fun table => e.recast (slots ν table))
      (enclose (e.strength < place) (e.tokens ν)) b := by
  by_cases hweak : e.strength < place
  · rw [decide_eq_true hweak]
    have hclose : ExprEnd (")" :: b) := exprEnd_of_closer (by decide)
    have hinner := (Eats.lit "(" _).skip ((h.expr hclose).close (.lit ")" b))
    have hparen : Eats (.rule .parenExpr) ("(" :: (e.tokens ν ++ ")" :: b)) b _ := .rule rfl hinner
    rw [enclose, if_pos rfl]
    refine .operand (.of_declines 12 (by decide)) ?_
    rw [List.append_assoc]
    refine (Eats.one 0 rfl nofun hparen).imp ?_
    rintro _ ⟨line, column, text, _, rfl, t, rfl, ht⟩
    exact ⟨_, _, rfl, rfl, ht⟩
  · -- As no operator may take a part of it, what was asked for follows from its strength.
    rw [decide_eq_false hweak]
    have hplace := Nat.le_of_not_lt hweak
    exact (h b (hb hplace)).weaken (hlevel.trans hplace) (hreach hplace)

/-- Two operands with an infix operator between them. -/
theorem joined {x : String × Rule} {strength : Nat} {groupsRight : Bool} {combine : Expr → Expr → Expr}
    (hx : x ∈ infixTokens) (hgrouping : (strength, groupsRight) ∈ groupings)
    (heats : ∀ b, Eats (oneOf infixOps) (x.1 :: b) b (IsInfix strength groupsRight combine))
    (hleft : left.Reads ν V customErrors) (hright : right.Reads ν V customErrors)
    (hcall : Refuses (lit "(") b) (hset : Refuses setSign b) :
    Segment V customErrors strength (if groupsRight then strength - 1 else strength)
      (fun table => combine (left.recast (slots ν table)) (right.recast (slots ν table)))
      (enclose (left.strength < strength + if groupsRight then 1 else 0) (left.tokens ν) ++
        x.1 :: enclose (right.strength < strength + if groupsRight then 0 else 1) (right.tokens ν)) b := by
  have hstrong : Strength.conditional < strength :=
    (by decide : ∀ x ∈ groupings, Strength.conditional < x.1) _ hgrouping
  have hl : Segment V customErrors strength strength (fun table => left.recast (slots ν table))
      (enclose (left.strength < strength + if groupsRight then 1 else 0) (left.tokens ν))
      (x.1 :: (enclose (right.strength < strength + if groupsRight then 0 else 1) (right.tokens ν) ++ b)) :=
    hleft.operand (Nat.le_add_right _ _) (Expr.left_reach hgrouping) fun _ => .symbol hx (by omega)
  have hr : Segment V customErrors (strength + if groupsRight then 0 else 1)
      (if groupsRight then strength - 1 else strength) (fun table => right.recast (slots ν table))
      (enclose (right.strength < strength + if groupsRight then 0 else 1) (right.tokens ν)) b := by
    refine hright.operand (Nat.le_refl _) (fun hplace => ?_) fun _ => .of_strong (by omega) hcall hset
    -- On the side that the operator does not group to, the operand has to be stronger than it.
    cases groupsRight with
    | true => exact Nat.sub_le_of_le_add (hplace.trans right.strength_le_reach)
    | false => exact Nat.le_of_succ_le_succ (hplace.trans right.strength_le_reach)
  refine .join (Nat.le_refl _) (Nat.le_refl _) ?_ hl (infix_unchained hx).1 (heats _) hr
  split <;> omega

theorem binary {op : BinaryOp} (hleft : left.Reads ν V customErrors) (hright : right.Reads ν V customErrors) :
    (Expr.binary op left right).Reads ν V customErrors := by
  intro b hb
  obtain ⟨x, hx, hsymbol⟩ := symbol_mem op
  have hgrouping : (op.strength, op.groupsRight) ∈ groupings := by cases op <;> decide
  have h := joined hx hgrouping (fun b => hsymbol ▸ binary_eats op) hleft hright hb.uncalled
    (hb.unset rfl)
  rw [hsymbol] at h
  exact h

theorem and (hleft : left.Reads ν V customErrors) (hright : right.Reads ν V customErrors) :
    (Expr.and left right).Reads ν V customErrors :=
  fun _ hb => joined (x := ("&&", .land)) (by decide) (by decide)
    (fun _ => infix_piece 1 rfl fun _ _ _ => rfl) hleft hright hb.uncalled (hb.unset rfl)

theorem or (hleft : left.Reads ν V customErrors) (hright : right.Reads ν V customErrors) :
    (Expr.or left right).Reads ν V customErrors :=
  fun _ hb => joined (x := ("||", .lor)) (by decide) (by decide)
    (fun _ => infix_piece 0 rfl fun _ _ _ => rfl) hleft hright hb.uncalled (hb.unset rfl)

theorem unary {op : UnaryOp} (h : e.Reads ν V customErrors) :
    (Expr.unary op e).Reads ν V customErrors := by
  intro b hb
  have hoperand : Segment V customErrors Strength.sign (Strength.sign - 1)
      (fun table => e.recast (slots ν table)) (enclose (e.strength < Strength.sign) (e.tokens ν)) b :=
    h.operand (Nat.le_refl _) (fun hplace => Nat.le_of_succ_le_succ (hplace.trans e.strength_le_reach))
      fun hplace => .of_strong (Nat.lt_of_lt_of_le (by decide) hplace) hb.uncalled (hb.unset rfl)
  have hop {b : List String} : Eats (oneOf prefixOps) ([op.symbol] ++ b) b
      (IsPrefix V customErrors Strength.sign fun e _ => .unary op e) := unary_eats op
  exact .sign (by decide) hop hoperand

/-! ## Postfix operators -/

/-- A base and a postfix operator, which ends where the expression does. -/
theorem attached {t : String} {rest : List String} {f : Names → Expr → Expr}
    (h : e.Reads ν V customErrors) (ht : t ∈ suffixes)
    (heats : Eats (oneOf postfixOps) (t :: rest ++ b) b (IsPostfix V customErrors Strength.access f)) :
    Segment V customErrors Strength.access reach (fun table => f table (e.recast (slots ν table)))
      (enclose (e.strength < Strength.access) (e.tokens ν) ++ t :: rest) b :=
  .attach (h.operand (Nat.le_refl _) Expr.access_le_reach
    fun hplace => .suffix ht (Nat.lt_of_lt_of_le (by decide) hplace)) heats

theorem index {base index : Expr} (hbase : base.Reads ν V customErrors)
    (hindex : index.Reads ν V customErrors) : (Expr.index base index).Reads ν V customErrors := by
  intro b _
  rw [Expr.tokens, List.append_assoc]
  refine hbase.attached (f := fun table e => .index e (index.recast (slots ν table))) (by decide) ?_
  have hclose : ExprEnd ("]" :: b) := exprEnd_of_closer (by decide)
  have hinner := hindex.expr hclose
  -- A range is tried first, and fails only behind the index, where there are no dots.
  have hrange : Refuses (.rule .indexRange) ("[" :: (index.tokens ν ++ "]" :: b)) :=
    .rule rfl (.seq_after (.lit "[" _) (.seq_after hinner (.seq (.of_declines 4 (by decide)))))
  have hsingle : Eats (.rule .indexSingle) ("[" :: (index.tokens ν ++ "]" :: b)) b _ :=
    .rule rfl ((Eats.lit "[" _).skip (hinner.close (.lit "]" b)))
  show Eats _ ("[" :: (index.tokens ν ++ ["]"] ++ b)) b _
  rw [List.append_assoc]
  refine (Eats.one 1 rfl ?_ hsingle).imp ?_
  · intro q hq
    rw [List.mem_singleton.mp hq]
    exact hrange
  · rintro _ ⟨line, column, text, _, rfl, t, rfl, ht⟩
    exact ⟨_, _, rfl, rfl, ht.map⟩

theorem range {base first last : Expr} (hbase : base.Reads ν V customErrors)
    (hfirst : first.Reads ν V customErrors) (hlast : last.Reads ν V customErrors) :
    (Expr.range base first last).Reads ν V customErrors := by
  intro b _
  rw [Expr.tokens, List.append_assoc, List.append_assoc]
  refine hbase.attached (f := fun table e => .range e (first.recast (slots ν table))
    (last.recast (slots ν table))) (by decide) ?_
  have hdots : ExprEnd (".." :: (last.tokens ν ++ "]" :: b)) := exprEnd_of_closer (by decide)
  have hclose : ExprEnd ("]" :: b) := exprEnd_of_closer (by decide)
  have hrange : Eats (.rule .indexRange)
      ("[" :: (first.tokens ν ++ ".." :: (last.tokens ν ++ "]" :: b))) b _ :=
    .rule rfl ((Eats.lit "[" _).skip ((hfirst.expr hdots).seq
      ((Eats.lit ".." _).skip ((hlast.expr hclose).close (.lit "]" b)))))
  show Eats _ ("[" :: (first.tokens ν ++ ".." :: (last.tokens ν ++ ["]"]) ++ b)) b _
  rw [List.append_assoc, List.cons_append, List.append_assoc]
  refine (Eats.one 0 rfl nofun hrange).imp ?_
  rintro _ ⟨line, column, text, _, rfl, _, _, rfl, ⟨t, rfl, ht⟩, t', rfl, ht'⟩
  exact ⟨_, _, rfl, rfl, ht.map₂ (f := fun a c base => Expr.range base a c) ht'⟩

theorem cond {condition consequence alternative : Expr} (hcondition : condition.Reads ν V customErrors)
    (hconsequence : consequence.Reads ν V customErrors) (halternative : alternative.Reads ν V customErrors) :
    (Expr.cond condition consequence alternative).Reads ν V customErrors := by
  intro b hb
  have hended := hb.ended (Nat.le_refl _)
  have hbar : ExprEnd ("|" :: (alternative.tokens ν ++ b)) := exprEnd_of_closer (by decide)
  have hcond : Eats (.rule .condExpr) ("?" :: (consequence.tokens ν ++ "|" :: (alternative.tokens ν ++ b)))
      b _ :=
    .rule rfl ((Eats.lit "?" _).skip ((hconsequence.expr hbar).seq
      ((Eats.lit "|" _).skip (halternative.expr hended))))
  have hpost : Eats (oneOf postfixOps) ("?" :: consequence.tokens ν ++ "|" :: alternative.tokens ν ++ b) b
      (IsPostfix V customErrors Strength.conditional fun table e => .cond e
        (consequence.recast (slots ν table)) (alternative.recast (slots ν table))) := by
    rw [List.append_assoc]
    refine (Eats.one 7 rfl (.each_rule 12 (by decide)) hcond).imp ?_
    rintro _ ⟨line, column, text, _, rfl, _, _, rfl, ⟨t, rfl, ht⟩, t', rfl, ht'⟩
    exact ⟨_, _, rfl, rfl, ht.map₂ (f := fun a c e => Expr.cond e a c) ht'⟩
  rw [Expr.tokens, List.append_assoc]
  have hbase : Segment V customErrors Strength.conditional Strength.conditional
      (fun table => condition.recast (slots ν table))
      (enclose (condition.strength < Strength.conditional + 1) (condition.tokens ν)) _ :=
    hcondition.operand (Nat.le_succ _)
      (fun hplace => Nat.le_of_succ_le_succ (hplace.trans condition.strength_le_reach))
      fun hplace => .suffix (b := consequence.tokens ν ++ "|" :: alternative.tokens ν ++ b)
        (show "?" ∈ suffixes by decide) hplace
  exact .attach (f := fun table e => .cond e (consequence.recast (slots ν table))
    (alternative.recast (slots ν table))) hbase hpost

theorem assign {target e : Expr} (hplace : target.isPlace = true) (htarget : target.Reads ν V customErrors)
    (hopen : Opens (e.tokens ν)) (he : e.Reads ν V customErrors) :
    (Expr.assign target e).Reads ν V customErrors := by
  intro b hb
  have hended := hb.ended (Nat.le_of_ble_eq_true rfl)
  have hset : Eats (.rule .assign) ("=" :: (e.tokens ν ++ b)) b _ :=
    .rule rfl ((Eats.lit "=" _).skip (hopen.unset.skip (he.expr hended)))
  have hpost : Eats (oneOf postfixOps) ("=" :: e.tokens ν ++ b) b
      (IsPostfix V customErrors Strength.assignment fun table target =>
        .assign target (e.recast (slots ν table))) := by
    refine (Eats.one 6 rfl (.each_rule 12 (by decide)) hset).imp ?_
    rintro _ ⟨line, column, text, _, rfl, t, rfl, ht⟩
    exact ⟨_, _, rfl, rfl, ht.map⟩
  -- The sign may follow only a place, and as weak as it is, a place needs no parentheses before it.
  have hstrength := Expr.strength_of_isPlace hplace
  have hreach := Expr.access_le_reach hstrength.ge
  have hfollows : Follows target ("=" :: e.tokens ν ++ b) :=
    ⟨.of_declines 4 (by decide), fun h => absurd (hplace.symm.trans h) (by decide),
      fun h => absurd (hstrength ▸ h) (by decide)⟩
  have hbase : Segment V customErrors Strength.assignment Strength.assignment
      (fun table => target.recast (slots ν table)) (target.tokens ν) ("=" :: e.tokens ν ++ b) :=
    (htarget _ hfollows).weaken (Nat.le_trans (by decide) hstrength.ge) (Nat.le_trans (by decide) hreach)
  exact .attach (f := fun table target => .assign target (e.recast (slots ν table))) hbase hpost

/-! ## Names of properties and methods -/

theorem plainName_eq_some {name : Expr} {s : String} (h : name.plainName? = some s) :
    name = .value (.str s) ∧ isIdentifier s = true := by
  unfold Expr.plainName? at h
  split at h
  · split at h
    · cases h
      exact ⟨rfl, ‹_›⟩
    · cases h
  · cases h

/-- An identifier is no bracket. -/
theorem paren_refused {s : String} {ts : List String} (hs : isIdentifier s = true) :
    Refuses (lit "(") (s :: ts) :=
  .at_word (isIdentifier_iff.mp hs).1 4 (by decide)

theorem prop {object property : Expr} (hobject : object.Reads ν V customErrors)
    (hproperty : property.Reads ν V customErrors) : (Expr.prop object property).Reads ν V customErrors := by
  intro b _
  refine hobject.attached (f := fun table e => .prop e (property.recast (slots ν table))) (by decide) ?_
  have hbefore : ∀ q ∈ postfixOps.take 4,
      Refuses (.rule q) ("." :: (nameTokens property (property.tokens ν) ++ b)) :=
    .each_rule 12 (by decide)
  unfold nameTokens at hbefore ⊢
  cases hname : property.plainName? with
  | some s =>
    obtain ⟨rfl, hs⟩ := plainName_eq_some hname
    rw [hname] at hbefore
    have hparen : Refuses (.rule .propExpr) ("." :: s :: b) :=
      .rule rfl (.seq_after (.lit "." _) (.seq (paren_refused hs)))
    have hprop : Eats (.rule .prop) ("." :: s :: b) b _ := .rule rfl ((Eats.lit "." _).skip (.ident hs))
    refine (Eats.one 5 rfl ?_ hprop).imp ?_
    · intro q hq
      rcases List.mem_append.mp (show q ∈ postfixOps.take 4 ++ [.propExpr] from hq) with hq | hq
      · exact hbefore q hq
      · exact List.mem_singleton.mp hq ▸ hparen
    · rintro _ ⟨line, column, text, _, rfl, line', column', rfl⟩
      refine ⟨_, _, rfl, rfl, ?_⟩
      rw [String.ofList_toList]
      exact .pure _
  | none =>
    rw [hname] at hbefore
    have hclose : ExprEnd (")" :: b) := exprEnd_of_closer (by decide)
    have hprop : Eats (.rule .propExpr) ("." :: "(" :: (property.tokens ν ++ ")" :: b)) b _ :=
      .rule rfl ((Eats.lit "." _).skip ((Eats.lit "(" _).skip ((hproperty.expr hclose).close (.lit ")" b))))
    simp only [List.cons_append, List.append_assoc, List.nil_append] at hbefore ⊢
    refine (Eats.one 4 rfl hbefore hprop).imp ?_
    rintro _ ⟨line, column, text, _, rfl, t, rfl, ht⟩
    exact ⟨_, _, rfl, rfl, ht.map⟩

theorem verb {object name : Expr} {args : List Arg} (hobject : object.Reads ν V customErrors)
    (hname : name.Reads ν V customErrors)
    (hargs : Items V customErrors (.rule .argument) readArgs (Arg.tokens ν args)
      fun table => Arg.recastIn (slots ν table) args) :
    (Expr.verb object name args).Reads ν V customErrors := by
  intro b _
  have htokens : (Expr.verb object name args).tokens ν =
      enclose (object.strength < Strength.access) (object.tokens ν) ++
        ":" :: (nameTokens name (name.tokens ν) ++ "(" :: (commas (Arg.tokens ν args) ++ [")"])) := by
    simp only [Expr.tokens, List.append_assoc, List.cons_append]
  rw [htokens]
  refine hobject.attached (f := fun table e => .verb e (name.recast (slots ν table))
    (Arg.recastIn (slots ν table) args)) (by decide) ?_
  have hlist := arglist_eats (b := b) hargs
  simp only [List.cons_append, List.append_assoc, List.nil_append] at hlist ⊢
  have hbefore : ∀ q ∈ postfixOps.take 2, Refuses (.rule q)
      (":" :: (nameTokens name (name.tokens ν) ++ "(" :: (commas (Arg.tokens ν args) ++ ")" :: b))) :=
    .each_rule 12 (by decide)
  unfold nameTokens at hbefore ⊢
  cases hplain : name.plainName? with
  | some s =>
    obtain ⟨rfl, hs⟩ := plainName_eq_some hplain
    rw [hplain] at hbefore
    have hverb : Eats (.rule .verbCall) (":" :: s :: "(" :: (commas (Arg.tokens ν args) ++ ")" :: b)) b _ :=
      .rule rfl ((Eats.lit ":" _).skip ((Eats.ident hs).seq hlist))
    refine (Eats.one 2 rfl hbefore hverb).imp ?_
    rintro _ ⟨line, column, text, _, rfl, _, _, rfl, ⟨line', column', rfl⟩,
      line₂, column₂, text₂, us, rfl, hus⟩
    refine ⟨_, _, rfl, rfl, ?_⟩
    rw [String.ofList_toList]
    exact hus.map
  | none =>
    rw [hplain] at hbefore
    have hclose : ExprEnd (")" :: "(" :: (commas (Arg.tokens ν args) ++ ")" :: b)) :=
      exprEnd_of_closer (by decide)
    have hverb : Eats (.rule .verbExprCall)
        (":" :: "(" :: (name.tokens ν ++ ")" :: "(" :: (commas (Arg.tokens ν args) ++ ")" :: b))) b _ :=
      .rule rfl ((Eats.lit ":" _).skip ((Eats.lit "(" _).skip
        ((hname.expr hclose).seq ((Eats.lit ")" _).skip hlist))))
    have hcall : Refuses (.rule .verbCall)
        (":" :: "(" :: (name.tokens ν ++ ")" :: "(" :: (commas (Arg.tokens ν args) ++ ")" :: b))) :=
      .rule rfl (.seq_after (.lit ":" _) (.seq (.of_declines 12 (by decide))))
    simp only [List.cons_append, List.append_assoc, List.nil_append] at hbefore ⊢
    refine (Eats.one 3 rfl ?_ hverb).imp ?_
    · intro q hq
      rcases List.mem_append.mp (show q ∈ postfixOps.take 2 ++ [.verbCall] from hq) with hq | hq
      · exact hbefore q hq
      · exact List.mem_singleton.mp hq ▸ hcall
    · rintro _ ⟨line, column, text, _, rfl, _, _, rfl, ⟨t, rfl, ht⟩,
        line₂, column₂, text₂, us, rfl, hus⟩
      exact ⟨_, _, rfl, rfl, ht.map₂ (f := fun a args e => Expr.verb e a args) hus⟩

/-! ## Calls -/

theorem alias_eq_some {function : String} {args : List Arg} {s : String}
    (h : alias? function args = some s) :
    function = "alias" ∧ args = [.item (.value (.str s))] ∧ isIdentifier s = true := by
  unfold alias? at h
  split at h
  · obtain ⟨rfl, hs⟩ := plainName_eq_some h
    exact ⟨rfl, rfl, hs⟩
  · cases h

/-- An alias is one token. -/
theorem alias_eats {s : String} (hs : isIdentifier s = true) :
    Eats (.rule .sysprop) (("$" ++ s) :: b) b (Rooted .sysprop (Spelt .ident s)) := by
  obtain ⟨hword, hothers⟩ := isIdentifier_iff.mp hs
  refine .of_takes fun {c tail} hrest htail => ?_
  have hparts : c.rest = ['$'] ++ (s.toList ++ tail) := by
    rw [hrest, String.toList_append]
    rfl
  have hident : Takes grammar { spacing := .tight } (.rule .ident) (c.skip ['$'].length) _ [_] :=
    rule_takes rfl (Cursor.rest_skip_append hparts) (ident_takes (by decide)
      (Cursor.rest_skip_append hparts) hword hothers htail.delimited)
  have hbody := seq_takes (text_takes hparts) (skips_of_not_loose (by decide)) hident
  rw [← Cursor.skip_append] at hbody
  have htext : ("$" ++ s).toList = ['$'] ++ s.toList := String.toList_append
  rw [htext] at hrest ⊢
  exact ⟨_, rule_takes rfl hrest hbody, _, _, _, _, rfl, _, _, rfl⟩

theorem call {function : String} {args : List Arg} (hident : isIdentifier function = true)
    (hlower : Text.lower function.toList = function.toList)
    (hargs : Items V customErrors (.rule .argument) readArgs (Arg.tokens ν args)
      fun table => Arg.recastIn (slots ν table) args) :
    (Expr.call function args).Reads ν V customErrors := by
  intro b _
  rw [Expr.tokens, callTokens]
  cases halias : alias? function args with
  | some s =>
    obtain ⟨rfl, rfl, hs⟩ := alias_eq_some halias
    have hhead : ∃ ch ∈ ['$'], ("$" ++ s).toList.head? = some ch :=
      ⟨'$', by decide, by rw [String.toList_append]; rfl⟩
    refine .operand (.of_head hhead 12 (by decide)) ((Eats.one 4 rfl ?_ (alias_eats hs)).imp ?_)
    · have hothers : ∀ q ∈ primaries.take 4, ['$'].all (fun ch => refuses grammar false (some ch) 8 blank &&
          refuses grammar true (some ch) 12 (.rule q)) = true := by decide
      exact fun q hq => .of_head hhead 12 (hothers q hq)
    · rintro _ ⟨line, column, text, _, rfl, line', column', rfl⟩
      refine ⟨_, _, rfl, rfl, ?_⟩
      rw [String.ofList_toList]
      exact .pure _
  | none =>
    have hword := (isIdentifier_iff.mp hident).1
    have hcall : Eats (.rule .builtinCall) (function :: "(" :: commas (Arg.tokens ν args) ++ ")" :: b) b _ :=
      .rule rfl ((Eats.ident hident).seq (arglist_eats hargs))
    simp only [List.cons_append] at hcall ⊢
    refine .operand (.at_word hword 12 (by decide)) ?_
    simp only [List.cons_append, List.append_assoc, List.nil_append]
    refine (Eats.one 3 rfl (.each_at_word hword 12 (by decide)) hcall).imp ?_
    rintro _ ⟨line, column, text, _, rfl, _, _, rfl, ⟨line', column', rfl⟩,
      line₂, column₂, text₂, us, rfl, hus⟩
    refine ⟨_, _, rfl, rfl, ?_⟩
    rw [hlower, String.ofList_toList]
    exact hus.map

/-! ## Lists and maps -/

theorem list {items : List Arg} (hitems : Items V customErrors (.rule .argument) readArgs (Arg.tokens ν items)
      fun table => Arg.recastIn (slots ν table) items)
    (hscatter : ∀ b, Refuses setSign b →
      Refuses (.rule .scatterAssign) ("\x7b" :: (commas (Arg.tokens ν items) ++ "\x7d" :: b))) :
    (Expr.list items).Reads ν V customErrors := by
  intro b hb
  have hlist : Eats (.rule .list) ("\x7b" :: (commas (Arg.tokens ν items) ++ "\x7d" :: b)) b _ :=
    .rule rfl ((Eats.lit "\x7b" _).skip ((args_eat hitems (by decide)).close (.lit "\x7d" b)))
  have htokens : (Expr.list items).tokens ν ++ b = "\x7b" :: (commas (Arg.tokens ν items) ++ "\x7d" :: b) := by
    simp only [Expr.tokens, List.append_assoc, List.cons_append, List.nil_append]
  refine .operand ?_ ?_
  · -- A brace may also open a scattering assignment, which is tried first.
    rw [htokens]
    refine .one fun q hq => ?_
    rcases List.mem_append.mp (show q ∈ [.neg, .not] ++ [.scatterAssign] from hq) with hq | hq
    · exact Refuses.each_rule 4 (by decide) q hq
    · exact List.mem_singleton.mp hq ▸ hscatter b (hb.unset rfl)
  · rw [htokens]
    refine (Eats.one 1 rfl ?_ hlist).imp ?_
    · intro q hq
      rw [List.mem_singleton.mp hq]
      exact .of_declines 12 (by decide)
    · rintro _ ⟨line, column, text, us, rfl, hus⟩
      exact ⟨_, _, rfl, rfl, hus.map⟩

theorem map {entries : List (Expr × Expr)}
    (hentries : Items V customErrors entry readEntries (Expr.entryTokens ν entries)
      fun table => Expr.recastIn (slots ν table) entries) :
    (Expr.map entries).Reads ν V customErrors := by
  intro b _
  have htokens : (Expr.map entries).tokens ν ++ b =
      "[" :: (commas (Expr.entryTokens ν entries) ++ "]" :: b) := by
    simp only [Expr.tokens, List.append_assoc, List.cons_append, List.nil_append]
  have hclose : ExprEnd ("]" :: b) := exprEnd_of_closer (by decide)
  have hinner : Eats (.opt (commaSeparated entry)) (commas (Expr.entryTokens ν entries) ++ "]" :: b) ("]" :: b)
      fun us => Resolves V customErrors (readEntries us) fun table => Expr.recastIn (slots ν table) entries := by
    cases hparts : Expr.entryTokens ν entries with
    | nil =>
      rw [hparts] at hentries
      refine (Eats.opt_none (.of_declines 40 (by decide))).imp ?_
      rintro _ rfl
      generalize hy : (fun table => Expr.recastIn (slots ν table) entries) = y at hentries
      cases hentries
      exact .pure []
    | cons ts tss =>
      rw [hparts] at hentries
      exact .opt (hentries.separated rfl hclose (.comma (by decide)))
  have hmap : Eats (.rule .map) ("[" :: (commas (Expr.entryTokens ν entries) ++ "]" :: b)) b _ :=
    .rule rfl ((Eats.lit "[" _).skip (hinner.close (.lit "]" b)))
  refine .operand ?_ ?_
  · rw [htokens]
    exact .of_declines 12 (by decide)
  · rw [htokens]
    refine (Eats.one 2 rfl ?_ hmap).imp ?_
    · exact .each_rule 12 (by decide)
    · rintro _ ⟨line, column, text, us, rfl, hus⟩
      exact ⟨_, _, rfl, rfl, hus.map⟩

/-! ## Scattering assignments -/

theorem countRests_recast (f : Name → Name) (targets : List Target) :
    countRests (Target.recastIn f targets) = countRests targets := by
  induction targets with
  | nil => rfl
  | cons target targets ih =>
    simp only [countRests] at ih ⊢
    rcases target with _ | ⟨_, _ | _⟩ | _ <;> simp [Target.recastIn, ih]

theorem scatter {targets : List Target} {source : Expr} (hne : targets ≠ [])
    (hrests : countRests targets ≤ 1)
    (htargets : Items V customErrors target readTargets (Target.tokens ν targets)
      fun table => Target.recastIn (slots ν table) targets)
    (hopen : Opens (source.tokens ν)) (hsource : source.Reads ν V customErrors) :
    (Expr.scatter targets source).Reads ν V customErrors := by
  intro b hb
  have hended := hb.ended (Nat.le_of_ble_eq_true rfl)
  have htokens : (Expr.scatter targets source).tokens ν =
      "\x7b" :: (commas (Target.tokens ν targets) ++ ["\x7d", "="]) ++ source.tokens ν := by
    simp only [Expr.tokens, List.append_assoc, List.cons_append, List.nil_append]
  have hinner : Eats (commaSeparated target)
      (commas (Target.tokens ν targets) ++ "\x7d" :: "=" :: (source.tokens ν ++ b))
      ("\x7d" :: "=" :: (source.tokens ν ++ b)) fun us => Resolves V customErrors (readTargets us)
        fun table => Target.recastIn (slots ν table) targets := by
    cases hparts : Target.tokens ν targets with
    | nil =>
      rcases targets with _ | ⟨_ | ⟨_, _ | _⟩ | _, _⟩ <;> simp_all [Target.tokens]
    | cons ts tss =>
      rw [hparts] at htargets
      exact htargets.separated rfl (exprEnd_of_closer (by decide)) (.comma (by decide))
  have hscatter : Eats (.rule .scatterAssign)
      ("\x7b" :: (commas (Target.tokens ν targets) ++ "\x7d" :: "=" :: (source.tokens ν ++ b)))
      (source.tokens ν ++ b) _ :=
    .rule rfl ((Eats.lit "\x7b" _).skip (hinner.close
      ((Eats.lit "\x7d" _).skip ((Eats.lit "=" _).skip hopen.unset))))
  have hop : Eats (oneOf prefixOps)
      ("\x7b" :: (commas (Target.tokens ν targets) ++ ["\x7d", "="]) ++ (source.tokens ν ++ b))
      (source.tokens ν ++ b) (IsPrefix V customErrors Strength.assignment fun source table =>
        .scatter (Target.recastIn (slots ν table) targets) source) := by
    simp only [List.append_assoc, List.cons_append, List.nil_append]
    refine (Eats.one 2 rfl ?_ hscatter).imp ?_
    · exact .each_rule 12 (by decide)
    · rintro _ ⟨line, column, text, us, rfl, hus⟩
      refine ⟨_, _, rfl, rfl, fun a => ?_⟩
      -- The targets are counted once they are read; that there is one rest at most is known only of
      -- what they are read as.
      refine hus.bind_of (z := fun targets _ => Expr.scatter targets a) fun table => ?_
      dsimp only
      rw [countRests_recast, if_neg (by omega)]
      exact .pure _
  rw [htokens]
  have hback : Segment V customErrors Strength.assignment (Strength.assignment - 1)
      (fun table => source.recast (slots ν table)) (source.tokens ν) b :=
    (hsource b hended.follows).weaken source.assignment_le_strength
      (Nat.sub_le_of_le_add (source.assignment_le_strength.trans source.strength_le_reach))
  exact .sign (by decide) hop hback

end Expr.Reads

/-! ## Lists are no targets -/

section

variable {ts us b m : List String}

/-- A pattern does not match, or it leads to some tokens or to where no item can end. -/
def Strays (p : Pattern Rule) (a m : List String) : Prop :=
  Refuses p a ∨ ∃ d P, Eats p a d P ∧
    (d = m ∨ Refuses (lit ",") d ∧ Refuses (lit "\x7d") d)

/-- The start of an expression is an identifier or refused as one. -/
theorem Opens.ident (h : Opens ts) : Strays (.rule .ident) (ts ++ m) m := by
  cases ts with
  | nil => exact h.elim
  | cons t ts =>
    rcases h with hmark | hconst | ⟨hident, -, hnext⟩
    · exact .inl (.of_head hmark 12 (by decide))
    · have hwords : ∀ kw ∈ constantWords, declines (· == .ident) kw.toList 12 (.rule .ident) = true := by
        decide
      exact .inl (.keyword (constantWords_keywords hconst) 12 (hwords t hconst))
    · refine .inr ⟨ts ++ m, _, .ident hident, ?_⟩
      cases ts with
      | nil => exact .inl rfl
      | cons u ts =>
        have hmarks : ∀ u ∈ connectors, declines (fun _ => false) u.toList 4 (lit ",") = true ∧
            declines (fun _ => false) u.toList 4 (lit "\x7d") = true := by decide
        obtain ⟨hcomma, hbrace⟩ := hmarks u (hnext u rfl)
        exact .inr ⟨.of_declines 4 hcomma, .of_declines 4 hbrace⟩

/-- An item of a list is no target for the others, or one that ends where no item does. -/
theorem Opens.target (h : Opens ts) : Strays target (ts ++ m) m ∧ Strays target ("@" :: ts ++ m) m := by
  have hmarks : ∀ q ∈ [Rule.scatterOptional, .scatterRest], Refuses (.rule q) (ts ++ m) := by
    intro q hq c hc
    simp only [List.mem_cons, List.not_mem_nil, or_false] at hq
    rcases hq with rfl | rfl
    · exact rule_fails (seq_fails (h.text_fails (by decide) hc))
    · exact rule_fails (seq_fails (h.text_fails (by decide) hc))
  have hoptional : Refuses (.rule .scatterOptional) ("@" :: ts ++ m) := .of_declines 12 (by decide)
  have hident := h.ident (m := m)
  constructor
  · rcases hident with hrefused | ⟨d, P, heats, hd⟩
    · refine .inl (.one fun q hq => ?_)
      rcases List.mem_append.mp (show q ∈ [.scatterOptional, .scatterRest] ++ [.scatterTarget] from hq)
        with hq | hq
      · exact hmarks q hq
      · exact List.mem_singleton.mp hq ▸ .rule rfl hrefused
    · exact .inr ⟨d, _, .one 2 rfl hmarks (.rule (r := .scatterTarget) rfl heats), hd⟩
  · rcases hident with hrefused | ⟨d, P, heats, hd⟩
    · refine .inl (.one fun q hq => ?_)
      simp only [List.mem_cons, List.not_mem_nil, or_false] at hq
      rcases hq with rfl | rfl | rfl
      · exact hoptional
      · exact .rule rfl (.seq_after (.lit "@" _) hrefused)
      · exact .of_declines 12 (by decide)
    · refine .inr ⟨d, _, .one 1 rfl ?_ (.rule (r := .scatterRest) rfl ((Eats.lit "@" _).skip heats)), hd⟩
      intro q hq
      rw [List.mem_singleton.mp hq]
      exact hoptional

/-- What follows the targets of a scattering assignment. -/
abbrev scatterEnd : Pattern Rule := .all [lit "\x7d", lit "=", .notAhead (lit "=")]

/-- Items of a list are taken for targets up to where no end of the targets follows. -/
theorem strays_repeat {tss : List (List String)}
    (h : ∀ ts ∈ tss, ∀ m, Strays target (ts ++ m) m) (hb : Refuses setSign b) :
    ∃ d P, Loops (.all [lit ",", target]) (tss.flatMap ("," :: ·) ++ "\x7d" :: b) d P ∧
      Refuses scatterEnd d := by
  induction tss with
  | nil =>
    -- All items are variables and could be targets, but no sign of an assignment follows.
    exact ⟨_, _, .stop (.seq (.comma (by decide))), .seq_after (.lit "\x7d" b) hb⟩
  | cons ts tss ih =>
    obtain ⟨hts, htss⟩ := List.forall_mem_cons.mp h
    rw [List.flatMap_cons, List.cons_append, List.cons_append, List.append_assoc]
    rcases hts (tss.flatMap ("," :: ·) ++ "\x7d" :: b) with
      hrefused | ⟨d, P, heats, rfl | ⟨hcomma, hbrace⟩⟩
    · exact ⟨_, _, .stop (.seq_after (.lit "," _) hrefused), .seq (.of_declines 4 (by decide))⟩
    · obtain ⟨d, Q, hmore, hd⟩ := ih htss
      exact ⟨d, _, .more ((Eats.lit "," _).skip heats) hmore, hd⟩
    · exact ⟨d, _, .more ((Eats.lit "," _).skip heats) (.stop hcomma.seq), .seq hbrace⟩

/-- A list is no scattering assignment if none follows. -/
theorem scatter_refused {tss : List (List String)} (h : ∀ ts ∈ tss, ∀ m, Strays target (ts ++ m) m)
    (hb : Refuses setSign b) :
    Refuses (.rule .scatterAssign) ("\x7b" :: (commas tss ++ "\x7d" :: b)) := by
  refine .rule rfl (.seq_after (.lit "\x7b" _) ?_)
  cases tss with
  | nil => exact .seq (.seq (.of_declines 12 (by decide)))
  | cons ts tss =>
    obtain ⟨hts, htss⟩ := List.forall_mem_cons.mp h
    rw [commas, List.append_assoc]
    rcases hts (tss.flatMap ("," :: ·) ++ "\x7d" :: b) with
      hrefused | ⟨d, P, heats, rfl | ⟨hcomma, hbrace⟩⟩
    · exact .seq (.seq hrefused)
    · obtain ⟨d, Q, hmore, hd⟩ := strays_repeat htss hb
      exact .seq_after (heats.seq (.star hmore)) hd
    · exact .seq_after (heats.seq (.star (.stop hcomma.seq))) (.seq hbrace)

end

/-! ## Arguments and targets -/

section

variable {ν : Name → String} {V : Finset String} {customErrors : Bool} {e : Expr} {y : Names → Expr}
  {ts b : List String}

/-- The tree of an argument, whose text says whether it is spliced. -/
def IsArgument (V : Finset String) (customErrors : Bool) (spliced : Bool) (y : Names → Expr)
    (us : List (Tree Rule)) : Prop :=
  ∃ line column text t, us = [.node .argument line column text [t]] ∧
    (text.head? = some '@' ↔ spliced = true) ∧ Resolves V customErrors (readExpr t) y

theorem item_eats (hopen : Opens ts) (h : Eats Rules.expr (ts ++ b) b (IsExpr V customErrors y)) :
    Eats (.rule .argument) (ts ++ b) b (IsArgument V customErrors false y) := by
  intro c hc
  obtain ⟨c₁, c₂, _, htakes, hskip, hc₂, t, rfl, ht⟩ := h c hc
  have hbody : Takes grammar (grammar.inside {} .argument) (Rules.body .argument).body c c₁ [t] :=
    alt_right (seq_fails (hopen.text_fails (by decide) hc)) htakes
  refine ⟨c₁, c₂, _, rule_plants rfl hbody, hskip, hc₂, _, _, _, _, rfl, ?_, ht⟩
  -- The text of the argument is empty or starts as the expression does, which is with no `@`.
  refine iff_of_false (fun hat => ?_) (by decide)
  obtain ⟨ch, hch, hhead⟩ := hopen.first hc
  obtain ⟨tail, hrest⟩ := List.head?_eq_some_iff.mp hhead
  rw [hrest] at hat
  cases hn : c₁.offset - c.offset with
  | zero =>
    rw [hn] at hat
    cases hat
  | succ n =>
    rw [hn] at hat
    cases hat
    exact absurd hch (by decide)

theorem splice_eats (h : Eats Rules.expr (ts ++ b) b (IsExpr V customErrors y)) :
    Eats (.rule .argument) ("@" :: ts ++ b) b (IsArgument V customErrors true y) := by
  rintro c ⟨-, tail, hrest, -, c', hskip', hc'⟩
  obtain ⟨c₁, c₂, _, htakes, hskip, hc₂, t, rfl, ht⟩ := h c' hc'
  have hbody : Takes grammar (grammar.inside {} .argument) (Rules.body .argument).body c c₁ [t] :=
    alt_left (seq_takes (text_takes hrest) hskip' htakes)
  refine ⟨c₁, c₂, _, rule_plants rfl hbody, hskip, hc₂, _, _, _, _, rfl, iff_of_true ?_ rfl, ht⟩
  -- At least the mark has been taken.
  have hmark : (c.skip "@".toList.length).offset = c.offset + 1 :=
    Cursor.offset_skip (by rw [hrest, List.length_append]; exact Nat.le_add_right _ _)
  have hlater := hskip'.offset_le.trans htakes.offset_le
  obtain ⟨n, hn⟩ := Nat.exists_eq_add_of_le' (show 1 ≤ c₁.offset - c.offset by omega)
  rw [hn, hrest]
  rfl

/-- An argument before others. -/
theorem argument_items (spliced : Bool) {args : List Arg} {tss : List (List String)}
    (h : ∀ b, ExprEnd b → Eats (.rule .argument) (ts ++ b) b (IsArgument V customErrors spliced y))
    (hmore : Items V customErrors (.rule .argument) readArgs tss fun table => Arg.recastIn (slots ν table) args) :
    Items V customErrors (.rule .argument) readArgs (ts :: tss) fun table =>
      (if spliced then Arg.splice (y table) else .item (y table)) :: Arg.recastIn (slots ν table) args := by
  refine .cons (fun b hb => (h b hb).imp ?_) hmore
  rintro _ ⟨line, column, text, t, rfl, hspliced, ht⟩ vs z hvs
  refine ht.bind (z := fun a table => (if spliced then Arg.splice a else .item a) :: z table) fun a => ?_
  have hif : (if text.head? = some '@' then Arg.splice a else .item a) =
      if spliced then .splice a else .item a := if_congr hspliced rfl rfl
  dsimp only
  rw [hif]
  exact hvs.map

/-- An entry before others. -/
theorem entry_items {key e : Expr} {entries : List (Expr × Expr)} {tss : List (List String)}
    (hkey : key.Reads ν V customErrors) (he : e.Reads ν V customErrors)
    (hmore : Items V customErrors entry readEntries tss fun table => Expr.recastIn (slots ν table) entries) :
    Items V customErrors entry readEntries ((key.tokens ν ++ "->" :: e.tokens ν) :: tss) fun table =>
      (key.recast (slots ν table), e.recast (slots ν table)) :: Expr.recastIn (slots ν table) entries := by
  refine .cons (fun b hb => ?_) hmore
  have harrow : ExprEnd ("->" :: (e.tokens ν ++ b)) := exprEnd_of_closer (by decide)
  rw [List.append_assoc]
  refine ((hkey.expr harrow).seq ((Eats.lit "->" _).skip (he.expr hb))).imp ?_
  rintro _ ⟨_, _, rfl, ⟨t, rfl, ht⟩, t', rfl, ht'⟩ vs z hvs
  refine ht.bind (z := fun a table => (a, e.recast (slots ν table)) :: z table) fun a => ?_
  exact ht'.bind (z := fun c table => (a, c) :: z table) fun c => hvs.map

/-- A target before others. -/
theorem target_items {r : Rule} {i : Nat} {targets : List Target} {tss : List (List String)}
    {x : Names → Target} {P : List (Tree Rule) → Prop}
    (hr : [Rule.scatterOptional, .scatterRest, .scatterTarget][i]? = some r)
    (hbefore : ∀ b, ∀ q ∈ [Rule.scatterOptional, .scatterRest, .scatterTarget].take i,
      Refuses (.rule q) (ts ++ b))
    (hbody : (Rules.body r).spacing = none)
    (h : ∀ b, ExprEnd b → Eats (Rules.body r).body (ts ++ b) b P)
    (hread : ∀ line column text us, P us →
      Resolves V customErrors (readTarget (.node r line column text us)) x)
    (hmore : Items V customErrors target readTargets tss fun table => Target.recastIn (slots ν table) targets) :
    Items V customErrors target readTargets (ts :: tss) fun table =>
      x table :: Target.recastIn (slots ν table) targets := by
  refine .cons (fun b hb => ?_) hmore
  refine (Eats.one i hr (hbefore b) (.rule hbody (h b hb))).imp ?_
  rintro _ ⟨line, column, text, us, rfl, hus⟩ vs z hvs
  exact (hread line column text us hus).map₂ hvs

/-- The variable can be printed under its name, which is one of `V`. -/
def Nameable (ν : Name → String) (V : Finset String) (n : Name) : Prop :=
  isVariable (ν n) = true ∧ Names.fold (ν n) ∈ V

/-- The tree of a variable that is met outside of expressions. -/
def IsName (ν : Name → String) (V : Finset String) (customErrors : Bool) (n : Name)
    (us : List (Tree Rule)) : Prop :=
  ∃ line column text, us = [.node .ident line column text []] ∧
    Resolves V customErrors (slotOf (String.ofList text)) fun table => slots ν table n

variable {n : Name} {targets : List Target} {tss : List (List String)}

theorem name_eats (customErrors : Bool) (hn : Nameable ν V n) (b : List String) :
    Eats (.rule .ident) (ν n :: b) b (IsName ν V customErrors n) := by
  refine (Eats.ident (isIdentifier_of_isVariable hn.1)).imp ?_
  rintro _ ⟨line, column, rfl⟩
  refine ⟨line, column, _, rfl, ?_⟩
  rw [String.ofList_toList]
  exact slotOf_resolves hn.2

theorem required_items (hn : Nameable ν V n) (hmore : Items V customErrors target readTargets tss
      fun table => Target.recastIn (slots ν table) targets) :
    Items V customErrors target readTargets ([ν n] :: tss)
      fun table => Target.recastIn (slots ν table) (.required n :: targets) := by
  have hword := (isIdentifier_iff.mp (isIdentifier_of_isVariable hn.1)).1
  refine target_items (i := 2) rfl (fun b => .each_at_word hword 8 (by decide)) rfl
    (fun b _ => name_eats customErrors hn b) ?_ hmore
  rintro line column text _ ⟨line', column', text', rfl, hname⟩
  exact hname.map

theorem rest_items (hn : Nameable ν V n) (hmore : Items V customErrors target readTargets tss
      fun table => Target.recastIn (slots ν table) targets) :
    Items V customErrors target readTargets (["@", ν n] :: tss)
      fun table => Target.recastIn (slots ν table) (.rest n :: targets) := by
  refine target_items (i := 1) rfl (fun b q hq => ?_) rfl
    (fun b _ => (Eats.lit "@" _).skip (name_eats customErrors hn b)) ?_ hmore
  · rw [List.mem_singleton.mp hq]
    exact .of_declines 8 (by decide)
  · rintro line column text _ ⟨line', column', text', rfl, hname⟩
    exact hname.map

theorem optional_items (hn : Nameable ν V n) (hmore : Items V customErrors target readTargets tss
      fun table => Target.recastIn (slots ν table) targets) :
    Items V customErrors target readTargets (["?", ν n] :: tss)
      fun table => Target.recastIn (slots ν table) (.optional n none :: targets) := by
  refine target_items (i := 0) rfl (fun b q hq => nomatch hq) rfl
    (fun b hb => (Eats.lit "?" _).skip ((name_eats customErrors hn b).close (.opt_none hb.unset.seq))) ?_ hmore
  rintro line column text _ ⟨line', column', text', rfl, hname⟩
  exact hname.map

theorem default_items (hn : Nameable ν V n) (he : e.Reads ν V customErrors)
    (hmore : Items V customErrors target readTargets tss
      fun table => Target.recastIn (slots ν table) targets) :
    Items V customErrors target readTargets (("?" :: ν n :: "=" :: e.tokens ν) :: tss)
      fun table => Target.recastIn (slots ν table) (.optional n (some e) :: targets) := by
  refine target_items (i := 0) rfl (fun b q hq => nomatch hq) rfl (fun b hb => (Eats.lit "?" _).skip
    ((name_eats customErrors hn _).seq (.opt ((Eats.lit "=" _).skip (he.expr hb))))) ?_ hmore
  rintro line column text _ ⟨_, _, rfl, ⟨line', column', text', rfl, hname⟩, t, rfl, ht⟩
  exact hname.map₂ (f := fun n e => Target.optional n (some e)) ht

end

/-! ## Expressions -/

section

variable {ν : Name → String} {V : Finset String} {customErrors : Bool}

theorem args_stray : ∀ args : List Arg, Arg.PrintableIn args →
    Arg.AllIn (IsLiteral customErrors) (Nameable ν V) args →
    ∀ ts ∈ Arg.tokens ν args, ∀ m, Strays target (ts ++ m) m
  | [], _, _ => nofun
  | .item e :: rest, h, hall => List.forall_mem_cons.mpr
    ⟨fun _ => (expr_opens e h.1 hall.1 fun _ hn => hn.1).target.1, args_stray rest h.2 hall.2⟩
  | .splice e :: rest, h, hall => List.forall_mem_cons.mpr
    ⟨fun _ => (expr_opens e h.1 hall.1 fun _ hn => hn.1).target.2, args_stray rest h.2 hall.2⟩

mutual

/-- Every expression is read back, by induction on it. -/
theorem Expr.reads : ∀ e : Expr, e.Printable → e.All (IsLiteral customErrors) (Nameable ν V) →
    e.Reads ν V customErrors
  | .assign target e, h, hall => .assign h.1 (Expr.reads target h.2.1 hall.1)
    (expr_opens e h.2.2 hall.2 fun _ hn => hn.1) (Expr.reads e h.2.2 hall.2)
  | .value _, _, hall => fun _ hb => .literal hall hb.uncalled
  | .var _, _, hall => fun _ hb => .var hall.1 hall.2 hb.uncalled
  | .binary _ left right, h, hall => .binary (Expr.reads left h.1 hall.1) (Expr.reads right h.2 hall.2)
  | .and left right, h, hall => .and (Expr.reads left h.1 hall.1) (Expr.reads right h.2 hall.2)
  | .or left right, h, hall => .or (Expr.reads left h.1 hall.1) (Expr.reads right h.2 hall.2)
  | .unary _ operand, h, hall => .unary (Expr.reads operand h hall)
  | .prop object property, h, hall => .prop (Expr.reads object h.1 hall.1) (Expr.reads property h.2 hall.2)
  | .call _ args, h, hall => .call h.1.1 h.1.2 (Arg.items args h.2 hall)
  | .verb object name args, h, hall => .verb (Expr.reads object h.1 hall.1)
    (Expr.reads name h.2.1 hall.2.1) (Arg.items args h.2.2 hall.2.2)
  | .range base first last, h, hall => .range (Expr.reads base h.1 hall.1)
    (Expr.reads first h.2.1 hall.2.1) (Expr.reads last h.2.2 hall.2.2)
  | .cond condition consequence alternative, h, hall => .cond (Expr.reads condition h.1 hall.1)
    (Expr.reads consequence h.2.1 hall.2.1) (Expr.reads alternative h.2.2 hall.2.2)
  | .index base index, h, hall => .index (Expr.reads base h.1 hall.1) (Expr.reads index h.2 hall.2)
  | .list items, h, hall => .list (Arg.items items h hall)
    fun _ hb => scatter_refused (args_stray items h hall) hb
  | .map entries, h, hall => .map (Expr.entries_items entries h hall)
  | .scatter targets source, h, hall => .scatter h.1.1 h.1.2 (Target.items targets h.2.1 hall.1)
    (expr_opens source h.2.2 hall.2 fun _ hn => hn.1) (Expr.reads source h.2.2 hall.2)

theorem Arg.items : ∀ args : List Arg, Arg.PrintableIn args →
    Arg.AllIn (IsLiteral customErrors) (Nameable ν V) args →
    Items V customErrors (.rule .argument) readArgs (Arg.tokens ν args)
      fun table => Arg.recastIn (slots ν table) args
  | [], _, _ => .nil
  | .item e :: rest, h, hall =>
    argument_items false (fun _ hb => item_eats (expr_opens e h.1 hall.1 fun _ hn => hn.1)
      ((Expr.reads e h.1 hall.1).expr hb)) (Arg.items rest h.2 hall.2)
  | .splice e :: rest, h, hall =>
    argument_items true (fun _ hb => splice_eats ((Expr.reads e h.1 hall.1).expr hb))
      (Arg.items rest h.2 hall.2)

theorem Expr.entries_items : ∀ entries : List (Expr × Expr), Expr.PrintableIn entries →
    Expr.AllIn (IsLiteral customErrors) (Nameable ν V) entries →
    Items V customErrors entry readEntries (Expr.entryTokens ν entries)
      fun table => Expr.recastIn (slots ν table) entries
  | [], _, _ => .nil
  | (key, e) :: rest, h, hall => entry_items (Expr.reads key h.1 hall.1) (Expr.reads e h.2.1 hall.2.1)
    (Expr.entries_items rest h.2.2 hall.2.2)

theorem Target.items : ∀ targets : List Target, Target.PrintableIn targets →
    Target.AllIn (IsLiteral customErrors) (Nameable ν V) targets →
    Items V customErrors target readTargets (Target.tokens ν targets)
      fun table => Target.recastIn (slots ν table) targets
  | [], _, _ => .nil
  | .required _ :: rest, h, hall => required_items hall.1 (Target.items rest h hall.2)
  | .rest _ :: rest, h, hall => rest_items hall.1 (Target.items rest h hall.2)
  | .optional _ none :: rest, h, hall => optional_items hall.1 (Target.items rest h hall.2)
  | .optional _ (some e) :: rest, h, hall =>
    default_items hall.1 (Expr.reads e h.1 hall.2.1) (Target.items rest h.2 hall.2.2)

end

end

end Lineage.Script
