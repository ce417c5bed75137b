/-
  Lineage.Proofs.Script.Checking

  When the reader comes to a result.

  `Checks` says of a part of the reader when it comes to a result and what is known of
  that.  What the reader knows by then (`Scope.Knows`) are the variables met so far,
  which are among those of the script, and those that `let` has introduced.  As long as
  the variables of the script fit in 16 bits, a variable has been introduced if and only
  if its slot has been.

  Of the literals, a float or a string is always taken.  An integer or an object is taken
  if its number fits in 64 bits, an error if it is built in or others may be written
  (`readAtom_checks`).
-/
import Mathlib.Data.Finset.Card
import Lineage.Proofs.Script.Flaws
import Lineage.Script.Names
import Lineage.Proofs.Script.TreeShapes
import Lineage.Script.Reader

namespace Lineage.Script

/-! ## Names -/

namespace Names

variable {ns : Names} {name text : String} {n m : Name}

/-- In a table without repetitions a name has one slot. -/
theorem text?_inj (hdistinct : ns.texts.toList.Nodup) (hn : ns.text? n = some text)
    (hm : ns.text? m = some text) : n = m := by
  simp only [text?, Array.getElem?_eq_some_iff] at hn hm
  obtain ⟨hi, hn⟩ := hn
  obtain ⟨hj, hm⟩ := hm
  have hij : n.slot.toNat = m.slot.toNat := by
    have hi' : n.slot.toNat < ns.texts.toList.length := hi
    have hj' : m.slot.toNat < ns.texts.toList.length := hj
    have htexts : ns.texts.toList[n.slot.toNat] = ns.texts.toList[m.slot.toNat] := by
      simpa using hn.trans hm.symm
    exact (List.Nodup.getElem_inj_iff hdistinct).mp htexts
  exact congrArg Name.mk (UInt16.toNat_inj.mp hij)

theorem text?_of_find? (h : ns.find? name = some n) (hwidth : ns.width ≤ UInt16.size) :
    ns.text? n = some (fold name) := by
  obtain ⟨i, hi, rfl, htext⟩ := find?_eq_some h
  rw [text?, UInt16.toNat_ofNat_of_lt' (Nat.lt_of_lt_of_le hi hwidth), Array.getElem?_eq_getElem hi,
    htext]

/-- What has a slot keeps it when the table grows. -/
theorem text?_mono {ns' : Names} (hgrow : ns.Precedes ns') (h : ns.text? n = some text) :
    ns'.text? n = some text := by
  obtain ⟨more, hmore⟩ := hgrow
  obtain ⟨hi, htext⟩ := Array.getElem?_eq_some_iff.mp h
  rw [text?, hmore, Array.getElem?_append_left hi]
  exact h

/-- Interning keeps a table without repetitions. -/
theorem intern_distinct (h : ns.texts.toList.Nodup) : (ns.intern name).2.texts.toList.Nodup := by
  unfold intern
  cases hfind : ns.find? name with
  | some n => exact h
  | none =>
    have hnew : ∀ text ∈ ns.texts, (text == fold name) = false := by
      simpa [find?] using hfind
    rw [Array.toList_push, List.nodup_append_comm]
    refine List.nodup_cons.mpr ⟨fun hmem => ?_, h⟩
    have := hnew _ (Array.mem_toList_iff.mp hmem)
    rw [beq_self_eq_true] at this
    cases this

theorem mem_intern {text : String} (h : text ∈ (ns.intern name).2.texts) :
    text ∈ ns.texts ∨ text = fold name := by
  unfold intern at h
  cases hfind : ns.find? name with
  | some n =>
    rw [hfind] at h
    exact .inl h
  | none =>
    rw [hfind] at h
    simpa using h

/-- The variables bound from the start are those with the first slots. -/
theorem isGlobal_iff (hinitial : Names.initial.Precedes ns) (hdistinct : ns.texts.toList.Nodup)
    (hn : ns.text? n = some text) : isGlobal n = true ↔ text ∈ GlobalName.texts := by
  obtain ⟨more, hmore⟩ := hinitial
  have hfirst {i : Nat} (hi : i < GlobalName.texts.length) : ns.texts[i]? = GlobalName.texts[i]? := by
    rw [hmore, Array.getElem?_append_left (by simpa [initial] using hi), initial]
    exact List.getElem?_toArray
  rw [isGlobal, decide_eq_true_eq]
  constructor
  · intro hslot
    rw [text?, hfirst hslot] at hn
    exact List.mem_of_getElem? hn
  · intro hmem
    obtain ⟨i, hi, rfl⟩ := List.getElem_of_mem hmem
    have hsmall : i < UInt16.size := Nat.lt_trans hi (by decide)
    have htext : ns.text? ⟨UInt16.ofNat i⟩ = some GlobalName.texts[i] := by
      rw [text?, UInt16.toNat_ofNat_of_lt' hsmall, hfirst hi, List.getElem?_eq_getElem hi]
    rw [text?_inj hdistinct hn htext, UInt16.toNat_ofNat_of_lt' hsmall]
    exact hi

end Names

/-! ## What the reader knows -/

/-- The reader has met variables of `V` only, and `let` has introduced those of `lets`, all different
and none of them bound from the start. -/
structure Scope.Knows (V : Finset String) (customErrors : Bool) (lets : List String) (scope : Scope) :
    Prop where
  distinct : scope.names.texts.toList.Nodup
  within : ∀ text ∈ scope.names.texts, text ∈ V
  initial : Names.initial.Precedes scope.names
  customErrors : scope.customErrors = customErrors
  declared : scope.declared.map scope.names.text? = lets.reverse.map some
  fresh : (GlobalName.texts ++ lets).Nodup

/-- A part of the reader comes to a result exactly if `P` holds and the variables of `lets`, which it
introduces, are new.  The result satisfies `R`. -/
def Checks {α : Type} (V : Finset String) (customErrors : Bool) (x : Reading α) (lets : List String)
    (P : Prop) (R : α → Prop) : Prop :=
  ∀ seen scope, scope.Knows V customErrors seen → match x scope with
    | .ok (a, scope') => P ∧ R a ∧ scope'.Knows V customErrors (seen ++ lets)
    | .error _ => ¬ (P ∧ (GlobalName.texts ++ (seen ++ lets)).Nodup)

section

variable {V : Finset String} {customErrors : Bool} {lets : List String} {scope : Scope}

theorem Scope.Knows.width (h : scope.Knows V customErrors lets) (hV : V.card ≤ UInt16.size) :
    scope.names.width ≤ UInt16.size := by
  refine Nat.le_trans ?_ hV
  rw [Names.width, ← Array.length_toList, ← List.toFinset_card_of_nodup h.distinct]
  apply Finset.card_le_card
  intro text htext
  exact h.within text (Array.mem_toList_iff.mp (List.mem_toFinset.mp htext))

/-- A name that is met has a slot from then on. -/
theorem Scope.Knows.intern (h : scope.Knows V customErrors lets) (hV : V.card ≤ UInt16.size)
    {name : String} (hname : Names.fold name ∈ V) :
    ({ scope with names := (scope.names.intern name).2 } : Scope).Knows V customErrors lets ∧
      (scope.names.intern name).2.text? (scope.names.intern name).1 = some (Names.fold name) := by
  obtain ⟨hgrow, hfind⟩ := scope.names.intern_spec name
  have hknows : ({ scope with names := (scope.names.intern name).2 } : Scope).Knows V customErrors lets :=
    { distinct := Names.intern_distinct h.distinct
      within := by
        intro text htext
        rcases Names.mem_intern htext with htext | rfl
        · exact h.within text htext
        · exact hname
      initial := h.initial.trans hgrow
      customErrors := h.customErrors
      declared := by
        rw [← h.declared]
        refine List.map_congr_left fun n hn => ?_
        obtain ⟨text, -, htext⟩ := List.mem_map.mp (h.declared ▸ List.mem_map_of_mem hn)
        rw [← htext]
        exact Names.text?_mono hgrow htext.symm
      fresh := h.fresh }
  exact ⟨hknows, Names.text?_of_find? hfind (hknows.width hV)⟩

/-- A variable has been introduced if its slot has. -/
theorem Scope.Knows.mem_declared (h : scope.Knows V customErrors lets) {n : Name} {text : String}
    (hn : scope.names.text? n = some text) : n ∈ scope.declared ↔ text ∈ lets := by
  constructor
  · intro hmem
    have htext := List.mem_map_of_mem (f := scope.names.text?) hmem
    rw [h.declared, hn, List.mem_map] at htext
    obtain ⟨text', htext', heq⟩ := htext
    cases heq
    exact List.mem_reverse.mp htext'
  · intro hmem
    have htext : some text ∈ scope.declared.map scope.names.text? := by
      rw [h.declared]
      exact List.mem_map_of_mem (List.mem_reverse.mpr hmem)
    obtain ⟨m, hm, heq⟩ := List.mem_map.mp htext
    rwa [Names.text?_inj h.distinct hn heq]

namespace Checks

variable {α β : Type} {x : Reading α} {f : α → Reading β} {lets' : List String} {P Q : Prop}
  {R : α → Prop} {S : β → Prop}

theorem iff (hx : Checks V customErrors x lets P R) (h : P ↔ Q) :
    Checks V customErrors x lets Q R := by
  rwa [← propext h]

theorem congr (hx : Checks V customErrors x lets P R) (hlets : lets = lets') (h : P ↔ Q) :
    Checks V customErrors x lets' Q R := by
  rw [← hlets]
  exact hx.iff h

theorem imp {R' : α → Prop} (hx : Checks V customErrors x lets P R) (h : ∀ a, R a → R' a) :
    Checks V customErrors x lets P R' := by
  intro seen scope hscope
  have hrun := hx seen scope hscope
  cases hx : x scope with
  | error e =>
    rw [hx] at hrun
    exact hrun
  | ok r =>
    rw [hx] at hrun
    exact ⟨hrun.1, h _ hrun.2.1, hrun.2.2⟩

theorem pure {a : α} (h : R a) : Checks V customErrors (pure a) [] True R := by
  intro seen scope hscope
  refine ⟨trivial, h, ?_⟩
  rw [List.append_nil]
  exact hscope

theorem throw {e : CompileError} : Checks V customErrors (throw e : Reading α) lets False R :=
  fun _ _ _ h => h.1

/-- One part after another. -/
theorem bind (hx : Checks V customErrors x lets P R)
    (hf : ∀ a, R a → Checks V customErrors (f a) lets' Q S) :
    Checks V customErrors (x >>= f) (lets ++ lets') (P ∧ Q) S := by
  intro seen scope hscope
  have hbind : (x >>= f) scope = (x scope).bind fun r => f r.1 r.2 := rfl
  have hfirst := hx seen scope hscope
  rw [hbind]
  cases hrun : x scope with
  | error e =>
    rw [hrun] at hfirst
    rintro ⟨⟨hP, -⟩, hfresh⟩
    rw [← List.append_assoc seen, ← List.append_assoc GlobalName.texts] at hfresh
    exact hfirst ⟨hP, hfresh.of_append_left⟩
  | ok r =>
    obtain ⟨a, scope₁⟩ := r
    rw [hrun] at hfirst
    obtain ⟨hP, hR, hscope₁⟩ := hfirst
    have hsecond := hf a hR (seen ++ lets) scope₁ hscope₁
    rw [List.append_assoc] at hsecond
    simp only [Except.bind]
    cases hrun' : f a scope₁ with
    | error e =>
      rw [hrun'] at hsecond
      exact fun h => hsecond ⟨h.1.2, h.2⟩
    | ok r =>
      rw [hrun'] at hsecond
      exact ⟨⟨hP, hsecond.1⟩, hsecond.2⟩

end Checks

theorem slotOf_checks (hV : V.card ≤ UInt16.size) {name : String} (hname : Names.fold name ∈ V) :
    Checks V customErrors (slotOf name) [] True fun _ => True := by
  intro seen scope hscope
  refine ⟨trivial, trivial, ?_⟩
  rw [List.append_nil]
  exact (hscope.intern hV hname).1

theorem declare_run (name : String) (scope : Scope) :
    declare name scope =
      match Names.isGlobal (scope.names.intern name).1 ||
          scope.declared.contains (scope.names.intern name).1 with
      | true => .error (.duplicateVariable name)
      | false => .ok ((scope.names.intern name).1,
        { scope with
          names := (scope.names.intern name).2
          declared := (scope.names.intern name).1 :: scope.declared }) := by
  cases hold : Names.isGlobal (scope.names.intern name).1 ||
    scope.declared.contains (scope.names.intern name).1
  all_goals
    simp only [declare, bind, StateT.bind, slotOf, get, getThe, MonadStateOf.get, StateT.get,
      Except.bind, pure, Except.pure, hold]
    rfl

theorem declare_checks (hV : V.card ≤ UInt16.size) {name : String} (hname : Names.fold name ∈ V) :
    Checks V customErrors (declare name) [Names.fold name] True fun _ => True := by
  intro seen scope hscope
  obtain ⟨hknows, htext⟩ := hscope.intern hV hname
  have hglobal := Names.isGlobal_iff hknows.initial hknows.distinct htext
  have hdeclared := hknows.mem_declared htext
  -- The name is new if it is neither bound from the start nor introduced before.
  have hfresh : (GlobalName.texts ++ (seen ++ [Names.fold name])).Nodup ↔
      Names.fold name ∉ GlobalName.texts ∧ Names.fold name ∉ seen := by
    rw [← List.append_assoc, List.nodup_append_comm, List.singleton_append, List.nodup_cons,
      List.mem_append, not_or]
    exact and_iff_left hscope.fresh
  rw [declare_run]
  cases hold : Names.isGlobal (scope.names.intern name).1 ||
    scope.declared.contains (scope.names.intern name).1 with
  | true =>
    rw [Bool.or_eq_true, List.contains_iff_mem, hglobal, hdeclared] at hold
    rintro ⟨-, hnew⟩
    obtain ⟨hnotGlobal, hnotSeen⟩ := hfresh.mp hnew
    exact hold.elim hnotGlobal hnotSeen
  | false =>
    rw [← Bool.not_eq_true, Bool.or_eq_true, List.contains_iff_mem, hglobal, hdeclared, not_or] at hold
    refine ⟨trivial, trivial, { hknows with declared := ?_, fresh := hfresh.mpr hold }⟩
    rw [List.map_cons, htext, List.reverse_append, List.map_append]
    exact congrArg (some (Names.fold name) :: ·) hknows.declared

end

end Lineage.Script

namespace Lineage

/-! ## Numerals -/

namespace Numeral

open Script (Digits decimal objectNumber sign_ne_digit)

/-- Digits are a numeral as long as their value stays within the limit. -/
theorem magnitude_isOk_iff {limit : Nat} {overflow : NumeralError} {ds : List Char}
    (hds : ∀ c ∈ ds, '0' ≤ c ∧ c ≤ '9') {value : Nat} (hvalue : value ≤ limit) :
    (∃ n, magnitude limit overflow value ds = .ok n) ↔ Nat.ofDigitChars 10 ds value ≤ limit := by
  refine ⟨fun h => ?_, fun h => ⟨_, magnitude_digits hds h⟩⟩
  induction ds generalizing value with
  | nil => exact hvalue
  | cons c ds ih =>
    obtain ⟨hc, hds⟩ := List.forall_mem_cons.mp hds
    obtain ⟨n, h⟩ := h
    simp only [magnitude, Script.digit?_of_digit hc] at h
    split at h
    · rename_i hnext
      rw [Nat.ofDigitChars_cons, Nat.mul_comm]
      exact ih hds hnext ⟨n, h⟩
    · cases h

/-- Whether digits are a numeral does not depend on what is made of their value. -/
theorem convert_isOk {ε α β γ : Type} {x : Except ε α} {f : α → β} {g : β → γ} :
    (∃ c, Except.map g (do return f (← x)) = .ok c) ↔ ∃ a, x = .ok a := by
  cases x with
  | error e => exact ⟨fun ⟨_, h⟩ => (nomatch h), fun ⟨_, h⟩ => (nomatch h)⟩
  | ok a => exact ⟨fun _ => ⟨a, rfl⟩, fun _ => ⟨g (f a), rfl⟩⟩

variable {digits : List Char}

theorem read_isOk_iff (h : Digits digits) : (∃ n, read digits = .ok n) ↔ decimal digits < 2 ^ 63 := by
  obtain ⟨hne, hdigits⟩ := h
  obtain ⟨c, rest, rfl⟩ := List.exists_cons_of_ne_nil hne
  obtain ⟨hminus, hplus⟩ := sign_ne_digit (hdigits c List.mem_cons_self)
  rw [read, convert_isOk, magnitude_isOk_iff hdigits (Nat.zero_le _)]
  · exact Nat.lt_succ_iff.symm
  · exact List.cons_ne_nil _ _
  · exact fun _ h => hminus (List.cons.inj h).1
  · exact fun _ h => hplus (List.cons.inj h).1

theorem read_minus_isOk_iff (h : Digits digits) :
    (∃ n, read ('-' :: digits) = .ok n) ↔ decimal digits ≤ 2 ^ 63 := by
  obtain ⟨hne, hdigits⟩ := h
  rw [read, if_neg hne, convert_isOk, magnitude_isOk_iff hdigits (Nat.zero_le _)]
  rfl

/-- The number of an object is read if it fits in 64 bits. -/
theorem read_object_isOk_iff {text : List Char} (h : Digits digits)
    (htext : text = '#' :: digits ∨ text = '#' :: '-' :: digits) :
    (∃ n, read (text.drop 1) = .ok n) ↔ -2 ^ 63 ≤ objectNumber text ∧ objectNumber text < 2 ^ 63 := by
  rcases htext with rfl | rfl
  · have hnumber : objectNumber ('#' :: digits) = decimal digits := by
      obtain ⟨c, rest, rfl⟩ := List.exists_cons_of_ne_nil h.1
      have hminus := (sign_ne_digit (h.2 c List.mem_cons_self)).1
      rw [objectNumber]
      rintro _ heq
      exact hminus (List.cons.inj heq).1
    rw [hnumber, List.drop_one, List.tail_cons, read_isOk_iff h]
    omega
  · rw [List.drop_one, List.tail_cons, read_minus_isOk_iff h, objectNumber]
    omega

end Numeral

/-! ## Errors -/

/-- The name of an error that the grammar takes is that of a built-in one or of another. -/
theorem ErrorCode.read_spelled {name : List Char} (hne : name ≠ [])
    (hname : ∀ c ∈ name, Script.isCodeChar c = true) :
    ∃ code, ErrorCode.read (String.ofList ('E' :: '_' :: name)) = some code ∧
      (code.isCustom = false ↔ ∃ e ∈ builtins, e.2.1 = String.ofList ('E' :: '_' :: name)) := by
  have hupper : Text.upper ('E' :: '_' :: name) = 'E' :: '_' :: name :=
    Script.upper_codeChars
      (List.forall_mem_cons.mpr ⟨rfl, List.forall_mem_cons.mpr ⟨rfl, hname⟩⟩)
  have hbuiltin : ∀ e ∈ builtins, e.1.isCustom = false := by decide
  simp only [ErrorCode.read, String.toList_ofList, hupper]
  cases hfind : builtins.find? fun e => e.2.1.toList = 'E' :: '_' :: name with
  | some e =>
    have hmem := List.mem_of_find?_eq_some hfind
    refine ⟨e.1, rfl, fun _ => ⟨e, hmem, ?_⟩, fun _ => hbuiltin e hmem⟩
    have hname : e.2.1.toList = 'E' :: '_' :: name := by simpa using List.find?_some hfind
    rw [← hname, String.ofList_toList]
  | none =>
    obtain ⟨c, name, rfl⟩ := List.exists_cons_of_ne_nil hne
    refine ⟨_, rfl, fun h => Bool.noConfusion h, ?_⟩
    rintro ⟨e, he, heq⟩
    have hother := List.find?_eq_none.mp hfind e he
    rw [heq, String.toList_ofList] at hother
    exact absurd (decide_eq_true rfl) hother

/-! ## Atoms -/

namespace Script

variable {V : Finset String} {customErrors : Bool} {r : Rule} {line column : Nat} {text : List Char}
  {ts : List (Tree Rule)}

/-- A part that gives a constant, if it comes to a result. -/
theorem checks_of_cases {x : Reading Expr} {P : Prop}
    (h : ∀ scope, scope.customErrors = customErrors →
      (∃ e, x scope = .error e ∧ ¬ P) ∨ ∃ v, x scope = .ok (.value v, scope) ∧ P) :
    Checks V customErrors x [] P fun e => e.Legal ∧ ¬ e.Assignable := by
  intro seen scope hscope
  rcases h scope hscope.customErrors with ⟨e, hrun, hP⟩ | ⟨v, hrun, hP⟩
  · rw [hrun]
    exact fun h => hP h.1
  · rw [hrun, List.append_nil]
    exact ⟨hP, ⟨trivial, id⟩, hscope⟩

theorem error_or_ok {ε α : Type} {x : Except ε α} {P : Prop} (h : (∃ a, x = .ok a) ↔ P) :
    (∃ e, x = .error e ∧ ¬ P) ∨ ∃ a, x = .ok a ∧ P := by
  cases x with
  | error e => exact .inl ⟨e, rfl, fun hP => by obtain ⟨a, ha⟩ := h.mpr hP; cases ha⟩
  | ok a => exact .inr ⟨a, rfl, h.mp ⟨a, rfl⟩⟩

/-- The rules of literals. -/
def literalRules : List Rule :=
  [.float, .integer, .string, .object, .errorCode, .boolean, .nullValue]

theorem readAtom_checks (h : Tree.Grown grammar (.node r line column text ts))
    (hr : r ∈ literalRules) :
    Checks V customErrors (readAtom r (String.ofList text)) []
      (Readable customErrors (.node r line column text ts)) fun e => e.Legal ∧ ¬ e.Assignable := by
  refine checks_of_cases fun scope hscope => ?_
  cases r with
  | float =>
    obtain ⟨x, hx⟩ := Option.isSome_iff_exists.mp (float_reads h)
    simp only [readAtom, String.toList_ofList, hx]
    exact .inr ⟨_, rfl, trivial⟩
  | integer =>
    have hread := Numeral.read_isOk_iff (integer_spelled h)
    rcases error_or_ok hread with ⟨e, hn, hbig⟩ | ⟨n, hn, hsmall⟩
    · simp only [readAtom, String.toList_ofList, hn]
      exact .inl ⟨_, rfl, hbig⟩
    · simp only [readAtom, String.toList_ofList, hn]
      exact .inr ⟨_, rfl, hsmall⟩
  | string =>
    obtain ⟨s, hs⟩ := string_unquotes h
    simp only [readAtom, String.toList_ofList, hs]
    exact .inr ⟨_, rfl, trivial⟩
  | object =>
    obtain ⟨digits, hdigits, htext⟩ := object_spelled h
    have hread := Numeral.read_object_isOk_iff hdigits htext
    rcases error_or_ok hread with ⟨e, hn, hbig⟩ | ⟨n, hn, hsmall⟩
    · simp only [readAtom, String.toList_ofList, hn]
      exact .inl ⟨_, rfl, hbig⟩
    · simp only [readAtom, String.toList_ofList, hn]
      exact .inr ⟨_, rfl, hsmall⟩
  | errorCode =>
    obtain ⟨name, rfl, hne, hname⟩ := errorCode_spelled h
    obtain ⟨code, hcode, hbuiltin⟩ := ErrorCode.read_spelled hne hname
    simp only [readAtom, hcode]
    rw [reading_bind (show (get : Reading Scope) scope = .ok (scope, scope) from rfl), hscope]
    cases hcustom : code.isCustom with
    | false => exact .inr ⟨_, rfl, .inr (hbuiltin.mp hcustom)⟩
    | true =>
      cases customErrors with
      | true => exact .inr ⟨_, rfl, .inl rfl⟩
      | false =>
        refine .inl ⟨_, rfl, ?_⟩
        rintro (hon | hname)
        · cases hon
        · rw [hbuiltin.mpr hname] at hcustom
          cases hcustom
  | boolean | nullValue => exact .inr ⟨_, rfl, trivial⟩
  | _ => exact absurd hr (by decide)

end Script

end Lineage
