/-
  Lineage.Proofs.Script.Atoms

  Values in literal form that are single words are read as expressions.
-/
import Lineage.Proofs.Numeral
import Lineage.Proofs.Script.Tokens
import Lineage.Proofs.Text.Case
import Lineage.Script.Reader
import Lineage.Value.Literal

namespace Lineage

open Grammar Script

/-! ## Values that have a literal -/

/-- A code that scripts can write: a custom one is `E_` with capitals, digits and underscores behind
it, and none of the built-in ones. -/
def ErrorCode.Spellable : ErrorCode → Prop
  | .custom name => (∃ word, word ≠ [] ∧ (∀ ch ∈ word, isCodeChar ch = true) ∧
      name.toList = ['E', '_'] ++ word) ∧ ∀ e ∈ builtins, e.2.1 ≠ name
  | _ => True

namespace Value

mutual

/-- A value whose literal form is a script for it: no float and not the least integer in it, maps in
the order of their keys, and no code that cannot be written. -/
def Writable : Value → Prop
  | .null | .bool _ | .str _ | .obj _ => True
  | .int n => n ≠ Int64.minValue
  | .float _ => False
  | .list items => AllWritable items
  | .map entries => Dict.Ordered entries ∧ EntriesWritable entries
  | .err e => e.code.Spellable

def AllWritable : List Value → Prop
  | [] => True
  | v :: rest => Writable v ∧ AllWritable rest

def EntriesWritable : List (String × Value) → Prop
  | [] => True
  | (_, v) :: rest => Writable v ∧ EntriesWritable rest

end

mutual

/-- The expression that a literal is read as. -/
def spelling : Value → Expr
  | .int n => if n < 0 then .unary .neg (.value (.int (-n))) else .value (.int n)
  | .list items => .list (spellItems items)
  | .map entries => .map (spellEntries entries)
  | .err e => .value (.err e.code.error)
  | v => .value v

def spellItems : List Value → List Arg
  | [] => []
  | v :: rest => .item (spelling v) :: spellItems rest

def spellEntries : List (String × Value) → List (Expr × Expr)
  | [] => []
  | (k, v) :: rest => (.value (.str k), spelling v) :: spellEntries rest

end

end Value

namespace Script

variable {s : Setting} {c c₁ c₂ c₃ : Cursor} {p : Pattern Rule} {front tail : List Char}
  {v : Value}

/-! ## Expressions -/

/-- The kinds of atoms, in the order in which they are tried. -/
abbrev kinds : List Rule :=
  [.float, .integer, .string, .object, .errorCode, .boolean, .nullValue, .ident]

/-- An atom is of the first kind that takes it. -/
theorem atom_takes {kind : Rule} (i : Nat) (hkind : kinds[i]? = some kind)
    (hsealed : (Rules.body kind).spacing = some .sealed) (hrest : c.rest = front ++ tail)
    (hbefore : ∀ r ∈ kinds.take i, Fails grammar {} (.rule r) c)
    (h : Takes grammar tightly (Rules.body kind).body c (c.skip front.length) []) :
    Takes grammar {} (.rule .atom) c (c.skip front.length)
      [.node .atom c.line c.column front [.node kind c.line c.column front []]] := by
  have hinside : grammar.inside {} kind = tightly := by
    simp only [inside, show (grammar.rule kind).spacing = some .sealed from hsealed]
    rfl
  refine rule_takes rfl hrest (any_takes i (p := .rule kind) ?_ ?_ (rule_takes rfl hrest ?_))
  · rw [List.getElem?_map]
    exact congrArg (Option.map Pattern.rule) hkind
  · intro q hq
    rw [← List.map_take] at hq
    obtain ⟨r, hr, rfl⟩ := List.mem_map.mp hq
    exact hbefore r hr
  · show Takes grammar (grammar.inside {} kind) _ _ _ _
    rwa [hinside]

/-- A run of one operand, after prefix operators. -/
theorem run_takes {before : List (Tree Rule)} {t : Tree Rule}
    (hbefore : Takes grammar {} (.star (Rules.oneOf Rules.prefixOps)) c c₁ before)
    (hstill : Still grammar c₁) (h : Takes grammar {} (Rules.oneOf Rules.primaries) c₁ c₂ [t])
    (hskip : Skips grammar {} c₂ c₃) (hstill' : Still grammar c₃)
    (hsuffixes : Fails grammar {} (Rules.oneOf Rules.postfixOps) c₃)
    (hbinary : Fails grammar {} (.all [Rules.oneOf Rules.infixOps, Rules.operand]) c₃) :
    Takes grammar {} (Rules.body .expr).body c c₃ (before ++ [t]) := by
  have hoperand : Takes grammar {} Rules.operand c c₃ (before ++ ([t] ++ [])) :=
    seq_takes hbefore hstill.skips (seq_takes h hskip (star_none hsuffixes))
  have hrun := seq_takes hoperand hstill'.skips (star_none hbinary)
  rwa [List.append_nil, List.append_nil] at hrun

/-- A run of one operand that ends where a value may end. -/
theorem expr_takes {before : List (Tree Rule)} {t : Tree Rule} (hrest : c.rest = front ++ tail)
    (htail : Stops tail)
    (hbefore : Takes grammar {} (.star (Rules.oneOf Rules.prefixOps)) c c₁ before)
    (hstill : Still grammar c₁)
    (h : Takes grammar {} (Rules.oneOf Rules.primaries) c₁ (c.skip front.length) [t]) :
    Takes grammar {} Rules.expr c (c.skip front.length)
      [.node .expr c.line c.column front (before ++ [t])] := by
  have hend : Stops (c.skip front.length).rest := by rwa [Cursor.rest_skip_append hrest]
  exact rule_takes rfl hrest (run_takes hbefore hstill h hend.still.skips hend.still
    (hend.fails 40 (by decide)) (hend.fails 40 (by decide)))

/-- The text up to another cursor is read as an expression, which is the spelling of a value. -/
def Spells (v : Value) (c c' : Cursor) : Prop :=
  ∃ t, Takes grammar {} Rules.expr c c' [t] ∧
    ∀ scope : Scope, scope.customErrors = true → readExpr t scope = .ok (v.spelling, scope)

/-- What is read in two steps. -/
theorem reading_bind {α β : Type} {x : Reading α} {f : α → Reading β} {scope scope' : Scope} {a : α}
    (h : x scope = .ok (a, scope')) : (x >>= f) scope = f a scope' := by
  show (x scope).bind _ = _
  rw [h]
  rfl

/-- The characters that a literal may start with, but for a sign and an opening bracket. -/
def atomStarts : List Char :=
  ['0', '1', '2', '3', '4', '5', '6', '7', '8', '9', '"', '#', 'E', 't', 'f', 'n']

theorem atomStarts_still {ch : Char} (hch : ch ∈ atomStarts) (hc : c.rest.head? = some ch) :
    Still grammar c := by
  have hblank : refusesEach grammar false atomStarts 8 Rules.blank = true := by decide
  exact still_of_refuses hc 8 (refuses_of_each hblank hch)

theorem prefix_fails {ch : Char} (hch : ch ∈ atomStarts) (hc : c.rest.head? = some ch) :
    Fails grammar {} (Rules.oneOf Rules.prefixOps) c := by
  have hsigns : refusesEach grammar true atomStarts 12 (Rules.oneOf Rules.prefixOps) = true := by
    decide
  exact fails_of_refuses (atomStarts_still hch hc) hc 12 (refuses_of_each hsigns hch)

theorem no_signs {ch : Char} (hch : ch ∈ atomStarts) (hc : c.rest.head? = some ch) :
    Takes grammar {} (.star (Rules.oneOf Rules.prefixOps)) c c [] :=
  star_none (prefix_fails hch hc)

/-- A text is taken as an operand, which is an atom of a kind. -/
structure Operand (kind : Rule) (c : Cursor) (front : List Char) : Prop where
  starts : ∃ ch ∈ atomStarts, c.rest.head? = some ch
  takes : Takes grammar {} (Rules.oneOf Rules.primaries) c (c.skip front.length)
    [.node .atom c.line c.column front [.node kind c.line c.column front []]]

/-- An atom is an operand if it is no call. -/
theorem Operand.of_token {kind : Rule} {ch : Char} (hch : ch ∈ atomStarts)
    (hc : c.rest.head? = some ch)
    (hcall : Fails grammar {} (.rule .builtinCall) c) (i : Nat) (hkind : kinds[i]? = some kind)
    (hsealed : (Rules.body kind).spacing = some .sealed) (hrest : c.rest = front ++ tail)
    (hbefore : ∀ r ∈ kinds.take i, Fails grammar {} (.rule r) c)
    (h : Takes grammar tightly (Rules.body kind).body c (c.skip front.length) []) :
    Operand kind c front := by
  have hprimary : ∀ r ∈ [Rule.parenExpr, .list, .map, .builtinCall, .sysprop], r ≠ .builtinCall →
      refusesEach grammar true atomStarts 12 (.rule r) = true := by decide
  refine ⟨⟨ch, hch, hc⟩,
    any_takes 5 rfl (fun q hq => ?_) (atom_takes i hkind hsealed hrest hbefore h)⟩
  obtain ⟨r, hr, rfl⟩ :
      ∃ r ∈ [Rule.parenExpr, .list, .map, .builtinCall, .sysprop], q = .rule r := by
    simpa [Rules.primaries] using hq
  by_cases hr' : r = .builtinCall
  · exact hr' ▸ hcall
  · exact fails_of_refuses (atomStarts_still hch hc) hc 12 (refuses_of_each (hprimary r hr hr') hch)

/-- An atom is read as what it spells. -/
theorem spells_atom {kind : Rule} (h : Operand kind c front) (hrest : c.rest = front ++ tail)
    (htail : Stops tail)
    (hread : ∀ scope : Scope, scope.customErrors = true →
      readAtom kind (String.ofList front) scope = .ok (v.spelling, scope)) :
    Spells v c (c.skip front.length) := by
  obtain ⟨ch, hch, hc⟩ := h.starts
  exact ⟨_, expr_takes hrest htail (no_signs hch hc) (atomStarts_still hch hc) h.takes, hread⟩

/-- The kinds before that of an atom do not start with its first character. -/
theorem kinds_fail {ch : Char} (hch : ch ∈ atomStarts) (hc : c.rest.head? = some ch) (i : Nat)
    (hrefuse : ∀ r ∈ kinds.take i, refuses grammar true (some ch) 12 (.rule r) = true) :
    ∀ r ∈ kinds.take i, Fails grammar {} (.rule r) c :=
  fun r hr => fails_of_refuses (atomStarts_still hch hc) hc 12 (hrefuse r hr)

/-! ## Numbers -/

theorem digit_mem_atomStarts {ch : Char} (h : '0' ≤ ch ∧ ch ≤ '9') : ch ∈ atomStarts.take 10 := by
  have hcodes : ∀ n < 58, 48 ≤ n → Char.ofNat n ∈ atomStarts.take 10 := by decide
  have hlo : 48 ≤ ch.toNat := h.1
  have hhi : ch.toNat ≤ 57 := h.2
  rw [← Char.ofNat_toNat ch]
  exact hcodes _ (Nat.lt_succ_of_le hhi) hlo

theorem digits_start (n : Nat) : ∃ ch ∈ atomStarts.take 10, (Numeral.digits n).head? = some ch := by
  have hne : Numeral.digits n ≠ [] := Nat.toDigits_ne_nil
  refine ⟨_, digit_mem_atomStarts (Numeral.isDigit_of_mem_digits (List.head_mem hne)), ?_⟩
  exact List.head?_eq_some_head hne

/-- What does not start with a letter is no call. -/
theorem no_call {ch : Char} (hch : ch ∈ atomStarts.take 12) (hc : c.rest.head? = some ch) :
    Fails grammar {} (.rule .builtinCall) c := by
  have hcall : refusesEach grammar true (atomStarts.take 12) 12 (.rule .builtinCall) = true := by
    decide
  exact fails_of_refuses (atomStarts_still (List.mem_of_mem_take hch) hc) hc 12
    (refuses_of_each hcall hch)

/-- Digits are an operand. -/
theorem digits_operand {n : Nat} (hrest : c.rest = Numeral.digits n ++ tail) (htail : Delimited tail) :
    Operand .integer c (Numeral.digits n) := by
  have hne : Numeral.digits n ≠ [] := Nat.toDigits_ne_nil
  have hdigits : ∀ ch ∈ Numeral.digits n, '0' ≤ ch ∧ ch ≤ '9' :=
    fun _ => Numeral.isDigit_of_mem_digits
  obtain ⟨ch, hch, hhead⟩ := digits_start n
  have hc : c.rest.head? = some ch := by rw [hrest, List.head?_append, hhead]; rfl
  have hfirst : atomStarts.take 10 = (atomStarts.take 12).take 10 := rfl
  refine .of_token (List.mem_of_mem_take hch) hc (no_call (List.mem_of_mem_take (hfirst ▸ hch)) hc)
    1 rfl rfl hrest (fun r hr => ?_) (digits_take hrest hne hdigits htail)
  rw [List.mem_singleton.mp hr]
  exact rule_fails (float_fails hrest hne hdigits htail)

theorem readAtom_integer {ds : List Char} {n : Int64} (h : Numeral.read ds = .ok n)
    (scope : Scope) :
    readAtom .integer (String.ofList ds) scope = .ok (.value (.int n), scope) := by
  simp only [readAtom, String.toList_ofList, h]
  rfl

/-- A number below zero is read as the sign before its magnitude. -/
theorem spells_negative {n : Int64} (hn : n ≠ Int64.minValue) (hneg : n.toInt < 0)
    (hrest : c.rest = ['-'] ++ Numeral.digits (-n.toInt).toNat ++ tail) (htail : Stops tail) :
    Spells (.int n) c (c.skip (['-'] ++ Numeral.digits (-n.toInt).toNat).length) := by
  have hlo := Numeral.lt_toInt hn
  have hminus : c.rest = ['-'] ++ (Numeral.digits (-n.toInt).toNat ++ tail) := hrest
  have hoperand := digits_operand (Cursor.rest_skip_append hminus) htail.delimited
  obtain ⟨ch, hch, hc⟩ := hoperand.starts
  have hstill := atomStarts_still hch hc
  have hsign : Takes grammar {} (Rules.oneOf Rules.prefixOps) c (c.skip ['-'].length)
      [.node .neg c.line c.column ['-'] []] :=
    any_takes 0 rfl (fun _ h => by cases h) (rule_takes rfl hminus (text_takes hminus))
  have hbefore := star_takes hsign (repeats_stop hstill.skips (prefix_fails hch hc))
  have htakes := hoperand.takes
  rw [← Cursor.skip_append] at htakes
  refine ⟨_, expr_takes hrest htail hbefore hstill htakes, fun scope _ => ?_⟩
  have hread := Numeral.read_digits (n := (-n.toInt).toNat) (by omega)
  rw [Int.toNat_of_nonneg (by omega), Int64.ofInt_neg, Int64.ofInt_toInt] at hread
  rw [Value.spelling, if_pos (Int64.lt_iff_toInt_lt.mpr hneg)]
  show (readAtom .integer _ >>= fun e => pure (Expr.unary .neg e)) scope = _
  rw [reading_bind (readAtom_integer hread scope)]
  rfl

theorem spells_int {n : Int64} (hn : n ≠ Int64.minValue)
    (hrest : c.rest = (Numeral.write n).toList ++ tail) (htail : Stops tail) :
    Spells (.int n) c (c.skip (Numeral.write n).toList.length) := by
  by_cases h : 0 ≤ n.toInt
  · have hread := Numeral.read_write n
    rw [Numeral.write_of_nonneg h] at hrest hread ⊢
    refine spells_atom (digits_operand hrest htail.delimited) hrest htail fun scope _ => ?_
    rw [Value.spelling, if_neg (by rw [Int64.lt_iff_toInt_lt, Int64.toInt_zero]; omega)]
    exact readAtom_integer hread scope
  · have hneg := Int.not_le.mp h
    rw [Numeral.write_of_neg hneg] at hrest ⊢
    exact spells_negative hn hneg hrest htail

/-- An object reference of any number is an operand, the least one too. -/
theorem obj_operand (id : ObjectId) (hrest : c.rest = id.literal.toList ++ tail)
    (htail : Delimited tail) : Operand .object c id.literal.toList := by
  obtain ⟨sign, n, hsign, hwrite⟩ : ∃ sign n, (sign = [] ∨ sign = ['-']) ∧
      (Numeral.write id.number).toList = sign ++ Numeral.digits n := by
    by_cases h : 0 ≤ id.number.toInt
    · exact ⟨[], _, .inl rfl, Numeral.write_of_nonneg h⟩
    · exact ⟨['-'], _, .inr rfl, Numeral.write_of_neg (by omega)⟩
  have htext : id.literal.toList = ['#'] ++ (sign ++ Numeral.digits n) := by
    rw [ObjectId.literal, String.toList_append, hwrite]
    rfl
  rw [htext] at hrest ⊢
  have hc : c.rest.head? = some '#' := by rw [hrest]; rfl
  have hparts : c.rest = ['#'] ++ (sign ++ (Numeral.digits n ++ tail)) := by
    rw [hrest, List.append_assoc, List.append_assoc]
  exact .of_token (by decide) hc (no_call (by decide) hc) 3 rfl rfl hrest
    (kinds_fail (by decide) hc 3 (by decide))
    (object_takes hsign hparts Nat.toDigits_ne_nil (fun _ => Numeral.isDigit_of_mem_digits) htail)

theorem readAtom_object (id : ObjectId) (scope : Scope) :
    readAtom .object (String.ofList id.literal.toList) scope = .ok (.value (.obj id), scope) := by
  have hdrop : id.literal.toList.drop 1 = (Numeral.write id.number).toList := by
    rw [ObjectId.literal, String.toList_append]
    rfl
  simp only [readAtom, String.toList_ofList, hdrop, Numeral.read_write]
  rfl

theorem spells_obj (id : ObjectId) (hrest : c.rest = id.literal.toList ++ tail)
    (htail : Stops tail) :
    Spells (.obj id) c (c.skip id.literal.toList.length) :=
  spells_atom (obj_operand id hrest htail.delimited) hrest htail fun scope _ => readAtom_object id scope

/-! ## Texts -/

/-- A text in quotes is an operand, whatever follows. -/
theorem quoted_operand (text : List Char) (hrest : c.rest = Text.literal text ++ tail) :
    Operand .string c (Text.literal text) := by
  have hc : c.rest.head? = some '"' := by rw [hrest]; rfl
  exact .of_token (by decide) hc (no_call (by decide) hc) 2 rfl rfl hrest
    (kinds_fail (by decide) hc 2 (by decide)) (string_takes _ hrest)

theorem readAtom_string (text : String) (scope : Scope) :
    readAtom .string (String.ofList (Text.literal text.toList)) scope =
      .ok (.value (.str text), scope) := by
  simp only [readAtom, String.toList_ofList, Text.unquote_literal, String.ofList_toList]
  rfl

theorem spells_str (text : String) (hrest : c.rest = (Value.quoted text).toList ++ tail)
    (htail : Stops tail) : Spells (.str text) c (c.skip (Value.quoted text).toList.length) := by
  rw [Value.quoted, String.toList_ofList] at hrest ⊢
  exact spells_atom (quoted_operand _ hrest) hrest htail fun scope _ => readAtom_string text scope

/-! ## Words -/

/-- A keyword is no call. -/
theorem word_no_call {kw : String} (hkw : kw ∈ Rules.keywords) (hrest : c.rest = kw.toList ++ tail)
    (htail : Delimited tail) : Fails grammar {} (.rule .builtinCall) c :=
  rule_fails (seq_fails (rule_fails (ident_fails (by decide) hkw hrest htail)))

theorem null_operand (hrest : c.rest = Value.null.literal.toList ++ tail) (htail : Delimited tail) :
    Operand .nullValue c Value.null.literal.toList := by
  have hc : c.rest.head? = some 'n' := by rw [hrest]; rfl
  exact .of_token (by decide) hc
    (word_no_call (show "null" ∈ Rules.keywords by decide) hrest htail) 6 rfl rfl hrest
    (kinds_fail (by decide) hc 6 (by decide))
    (word_ends (by decide) hrest (word_here hrest) htail.no_ident)

theorem spells_null (hrest : c.rest = Value.null.literal.toList ++ tail) (htail : Stops tail) :
    Spells .null c (c.skip Value.null.literal.toList.length) :=
  spells_atom (null_operand hrest htail.delimited) hrest htail fun _ _ => rfl

theorem bool_operand (b : Bool) (hrest : c.rest = (Value.bool b).literal.toList ++ tail)
    (htail : Delimited tail) : Operand .boolean c (Value.bool b).literal.toList := by
  cases b with
  | true =>
    have hc : c.rest.head? = some 't' := by rw [hrest]; rfl
    have htrue : Takes grammar tightly (.any [Rules.word "true", Rules.word "false"]) c _ [] :=
      alt_left (word_here hrest)
    exact .of_token (by decide) hc
      (word_no_call (show "true" ∈ Rules.keywords by decide) hrest htail) 5 rfl rfl hrest
      (kinds_fail (by decide) hc 5 (by decide)) (word_ends (by decide) hrest htrue htail.no_ident)
  | false =>
    have hc : c.rest.head? = some 'f' := by rw [hrest]; rfl
    have hfalse : Takes grammar tightly (.any [Rules.word "true", Rules.word "false"]) c _ [] :=
      alt_right (fails_of_refuses (atomStarts_still (by decide) hc) hc 2 (by decide))
        (word_here hrest)
    exact .of_token (by decide) hc
      (word_no_call (show "false" ∈ Rules.keywords by decide) hrest htail) 5 rfl rfl hrest
      (kinds_fail (by decide) hc 5 (by decide)) (word_ends (by decide) hrest hfalse htail.no_ident)

theorem readAtom_boolean (b : Bool) (scope : Scope) :
    readAtom .boolean (String.ofList (Value.bool b).literal.toList) scope =
      .ok (.value (.bool b), scope) := by
  cases b <;> rfl

theorem spells_bool (b : Bool) (hrest : c.rest = (Value.bool b).literal.toList ++ tail)
    (htail : Stops tail) : Spells (.bool b) c (c.skip (Value.bool b).literal.toList.length) :=
  spells_atom (bool_operand b hrest htail.delimited) hrest htail fun scope _ => readAtom_boolean b scope

end Script

/-! ## Error codes -/

theorem Script.codeChar_lt {ch : Char} (h : isCodeChar ch = true) : ch.toNat < 128 := by
  have hle {bound : Char} (hch : ch ≤ bound) (hbound : bound.toNat < 128) : ch.toNat < 128 :=
    Nat.lt_of_le_of_lt (show ch.toNat ≤ bound.toNat from hch) hbound
  simp only [isCodeChar, isUpper, isDigit, Bool.or_eq_true, Bool.and_eq_true, decide_eq_true_eq,
    beq_iff_eq] at h
  rcases h with (⟨-, h⟩ | ⟨-, h⟩) | rfl
  · exact hle h (by decide)
  · exact hle h (by decide)
  · decide

theorem Script.upper_codeChars {word : List Char} (h : ∀ ch ∈ word, isCodeChar ch = true) :
    Text.upper word = word := by
  have hcodes : ∀ n < 128, isCodeChar (Char.ofNat n) = true →
      Text.upperChar (Char.ofNat n) = [Char.ofNat n] := by decide
  induction word with
  | nil => rfl
  | cons ch word ih =>
    have hch := h ch List.mem_cons_self
    have hupper : Text.upperChar ch = [ch] := by
      have hlt := codeChar_lt hch
      rw [← Char.ofNat_toNat ch] at hch ⊢
      exact hcodes _ hlt hch
    rw [Text.upper, List.flatMap_cons, hupper]
    exact congrArg (ch :: ·) (ih fun ch hch => h ch (List.mem_cons_of_mem _ hch))

theorem ErrorCode.mem_builtins {code : ErrorCode} (h : code.isCustom = false) :
    ∃ e ∈ builtins, e.1 = code := by
  cases code with
  | custom name => cases h
  | _ => decide

/-- The name of a code that can be written, and what it is read as. -/
theorem ErrorCode.Spellable.read {code : ErrorCode} (h : code.Spellable) :
    ∃ word, word ≠ [] ∧ (∀ ch ∈ word, isCodeChar ch = true) ∧
      code.name.toList = ['E', '_'] ++ word ∧ ErrorCode.read code.name = some code := by
  cases hcustom : code.isCustom with
  | false =>
    obtain ⟨e, he, rfl⟩ := mem_builtins hcustom
    have hshape : ∀ e ∈ builtins, e.1.name.toList.drop 2 ≠ [] ∧
        (e.1.name.toList.drop 2).all isCodeChar = true ∧
        e.1.name.toList = ['E', '_'] ++ e.1.name.toList.drop 2 := by decide
    obtain ⟨hne, hword, hname⟩ := hshape e he
    exact ⟨_, hne, List.all_eq_true.mp hword, hname, read_name_of_builtin e he⟩
  | true =>
    cases code with
    | custom name =>
      obtain ⟨⟨word, hne, hword, hname⟩, hother⟩ := h
      refine ⟨word, hne, hword, hname, ?_⟩
      have hupper : Text.upper name.toList = name.toList := by
        rw [hname, Text.upper, List.flatMap_append]
        exact congrArg (['E', '_'] ++ ·) (Script.upper_codeChars hword)
      have hfind : (builtins.find? fun e => e.2.1.toList = name.toList) = none := by
        refine List.find?_eq_none.mpr fun e he heq => hother e he ?_
        exact String.toList_inj.mp (of_decide_eq_true heq)
      obtain ⟨ch, rest, rfl⟩ := List.exists_cons_of_ne_nil hne
      have hname : name = String.ofList ('E' :: '_' :: ch :: rest) := by
        rw [← String.ofList_toList (s := name), hname]
        rfl
      simp only [ErrorCode.name, ErrorCode.read, hupper, hfind]
      rw [hname, String.toList_ofList]
      rfl
    | _ => cases hcustom

namespace Script

variable {c : Cursor} {tail : List Char}

/-- The name of an error code is an operand unless arguments follow, as it is an identifier too. -/
theorem err_operand {code : ErrorCode} (hcode : code.Spellable)
    (hrest : c.rest = code.name.toList ++ tail) (htail : Delimited tail)
    (hcall : Fails grammar {} (.rule .builtinCall) c) : Operand .errorCode c code.name.toList := by
  obtain ⟨word, hne, hword, hname, -⟩ := hcode.read
  rw [hname] at hrest ⊢
  have hparts : c.rest = ['E', '_'] ++ (word ++ tail) := by rw [hrest, List.append_assoc]
  have hc : c.rest.head? = some 'E' := by rw [hrest]; rfl
  exact .of_token (by decide) hc hcall 4 rfl rfl hrest
    (kinds_fail (by decide) hc 4 (by decide)) (errorCode_takes hparts hne hword htail)

theorem readAtom_errorCode {code : ErrorCode} (hcode : code.Spellable) {scope : Scope}
    (hscope : code.isCustom = true → scope.customErrors = true) :
    readAtom .errorCode (String.ofList code.name.toList) scope =
      .ok (.value (.err code.error), scope) := by
  obtain ⟨-, -, -, -, hread⟩ := hcode.read
  have hallowed : (code.isCustom && !scope.customErrors) = false := by
    cases hcustom : code.isCustom with
    | false => rfl
    | true => rw [hscope hcustom]; rfl
  rw [String.ofList_toList]
  simp only [readAtom, hread]
  rw [reading_bind (show (get : Reading Scope) scope = .ok (scope, scope) from rfl), hallowed]
  rfl

theorem spells_err (e : ScriptError) (he : e.code.Spellable)
    (hrest : c.rest = (Value.err e).literal.toList ++ tail) (htail : Stops tail) :
    Spells (.err e) c (c.skip (Value.err e).literal.toList.length) := by
  have hcall : Fails grammar {} (.rule .builtinCall) c := by
    obtain ⟨word, -, hword, hname, -⟩ := he.read
    have hparts : c.rest = ['E', '_'] ++ (word ++ tail) := by
      rw [hrest, Value.literal, hname, List.append_assoc]
    have hfront : c.rest = (['E', '_'] ++ word) ++ tail := by rw [hparts, List.append_assoc]
    have hend : Stops (c.skip (['E', '_'] ++ word).length).rest := by
      rwa [Cursor.rest_skip_append hfront]
    exact rule_fails (seq_fails_after
      (rule_takes rfl hfront (codeName_ident_takes hparts hword htail.delimited))
      hend.still.skips (hend.fails 12 (by decide)))
  exact spells_atom (err_operand he hrest htail.delimited hcall) hrest htail fun scope hscope =>
    readAtom_errorCode he fun _ => hscope

end Script

end Lineage
