/-
  Lineage.Proofs.Json.Text

  What has been written is read back.

  The reader is followed over the text of a value up to what comes after it, by induction
  on the value; the fuel that is needed is twice the length of the text.  Main statement:
  `read_write`, for values whose floats are read back.
-/
import Mathlib.Tactic.SplitIfs
import Lineage.Json.Printer
import Lineage.Json.Reader
import Lineage.Proofs.Json.Numbers

namespace Lineage.Json

/-! ## Quoted texts -/

theorem hexValue?_hexDigit (n : Nat) : hexValue? (hexDigit n) = some (n % 16) := by
  have hlt : n % 16 < 16 := Nat.mod_lt _ (by decide)
  unfold hexDigit
  generalize n % 16 = d at hlt
  decide +revert

/-- The code of a control character is read back as the character. -/
theorem takeString_control (fuel : Nat) (done : List Char) (usable : Bool) {c : Char}
    (hcontrol : c.toNat < 0x20) (rest : List Char) :
    takeString (fuel + 1) done usable
        ('\\' :: 'u' :: '0' :: '0' :: hexDigit (c.toNat / 16) :: hexDigit c.toNat :: rest) =
      takeString fuel (c :: done) usable rest := by
  have hhex : takeHex ('0' :: '0' :: hexDigit (c.toNat / 16) :: hexDigit c.toNat :: rest) =
      some (c.toNat, rest) := by
    have hzero : hexValue? '0' = some 0 := rfl
    have hcode : ((0 * 16 + 0) * 16 + c.toNat / 16 % 16) * 16 + c.toNat % 16 = c.toNat := by omega
    simp only [takeHex, hzero, hexValue?_hexDigit, Option.bind_eq_bind, Option.bind_some,
      Option.pure_def, hcode]
  -- So small a code is no half of a pair.
  have hlead : isLead c.toNat = false := by
    simp only [isLead, Bool.and_eq_false_iff, decide_eq_false_iff_not]
    omega
  have htrail : isTrail c.toNat = false := by
    simp only [isTrail, Bool.and_eq_false_iff, decide_eq_false_iff_not]
    omega
  simp only [takeString, hhex, hlead, htrail, Bool.false_eq_true, if_false, Char.ofNat_toNat]

/-- A character that needs no escape stands for itself. -/
theorem takeString_plain (fuel : Nat) (done : List Char) (usable : Bool) {c : Char}
    (hquote : c ≠ '"') (hslash : c ≠ '\\') (hprintable : ¬ c.toNat < 0x20) (rest : List Char) :
    takeString (fuel + 1) done usable (c :: rest) = takeString fuel (c :: done) usable rest := by
  rw [takeString.eq_def]
  split
  · rename_i heq; cases heq
  · rename_i heq
    cases heq
    split
    · rename_i heq; cases heq
    · rename_i heq; cases heq; exact absurd rfl hquote
    · rename_i heq; cases heq; exact absurd rfl hslash
    · rename_i heq; cases heq; exact absurd rfl hslash
    · rename_i heq; cases heq; exact if_neg hprintable

/-- A character is read back from its escaped form, for one unit of fuel. -/
theorem takeString_escapeChar (fuel : Nat) (done : List Char) (usable : Bool) (c : Char)
    (rest : List Char) : takeString (fuel + 1) done usable (escapeChar c ++ rest) =
      takeString fuel (c :: done) usable rest := by
  unfold escapeChar
  split_ifs with hquote hslash _ _ _ _ _ hcontrol
  -- The escapes of one letter.
  iterate 7 · subst c; rfl
  · exact takeString_control fuel done usable hcontrol rest
  · exact takeString_plain fuel done usable hquote hslash hcontrol rest

theorem takeString_quote (s : List Char) (rest : List Char) (done : List Char) {fuel : Nat}
    (hfuel : s.length + 1 ≤ fuel) :
    takeString fuel done true (s.flatMap escapeChar ++ '"' :: rest) =
      some (s.reverse ++ done, true, rest) := by
  induction s generalizing done fuel with
  | nil =>
    obtain ⟨fuel, rfl⟩ : ∃ n, fuel = n + 1 := ⟨fuel - 1, by simp only [List.length_nil] at hfuel; omega⟩
    rfl
  | cons c s ih =>
    simp only [List.length_cons] at hfuel
    obtain ⟨fuel, rfl⟩ : ∃ n, fuel = n + 1 := ⟨fuel - 1, by omega⟩
    rw [List.flatMap_cons, List.append_assoc, takeString_escapeChar, ih (c :: done) (by omega),
      List.reverse_cons, List.append_assoc]
    rfl

theorem length_le_flatMap_escapeChar (s : List Char) : s.length ≤ (s.flatMap escapeChar).length := by
  have hone (c : Char) : 1 ≤ (escapeChar c).length := by
    unfold escapeChar
    repeat' split
    all_goals simp only [List.length_cons, List.length_nil]; omega
  induction s with
  | nil => exact Nat.le_refl _
  | cons c s ih =>
    have hc := hone c
    simp only [List.length_cons, List.flatMap_cons, List.length_append]
    omega

theorem takeQuoted_quote (s : String) (rest : List Char) :
    takeQuoted (s.toList.flatMap escapeChar ++ '"' :: rest) = some (some s, rest) := by
  have hlen := length_le_flatMap_escapeChar s.toList
  unfold takeQuoted
  rw [takeString_quote s.toList rest [] (by simp only [List.length_append]; omega)]
  simp only [List.append_nil, List.reverse_reverse, if_true, String.ofList_toList]

theorem quote_toList (s : String) :
    (quote s).toList = '"' :: (s.toList.flatMap escapeChar ++ ['"']) :=
  String.toList_ofList

/-! ## Values without loss -/

/-- The text of a float is read as that float. -/
def FloatReads (x : Binary64) : Prop := takeNumber (writeFloat x).toList = some (.float x, [])

mutual

/-- Nothing but integers that fit, and floats that are read back. -/
def Plain : Json → Prop
  | .null | .bool _ | .str _ => True
  | .int n => Fits n
  | .float x => FloatReads x
  | .unusable => False
  | .arr items => ItemsPlain items
  | .obj fields => FieldsPlain fields

def ItemsPlain : List Json → Prop
  | [] => True
  | j :: rest => Plain j ∧ ItemsPlain rest

def FieldsPlain : List (String × Json) → Prop
  | [] => True
  | (_, j) :: rest => Plain j ∧ FieldsPlain rest

end

theorem itemsPlain_iff (items : List Json) : ItemsPlain items ↔ ∀ j ∈ items, j.Plain := by
  induction items with
  | nil => simp only [ItemsPlain, List.not_mem_nil, false_imp_iff, implies_true]
  | cons j rest ih => rw [ItemsPlain, ih, List.forall_mem_cons]

theorem fieldsPlain_iff (fields : List (String × Json)) :
    FieldsPlain fields ↔ ∀ f ∈ fields, f.2.Plain := by
  induction fields with
  | nil => simp only [FieldsPlain, List.not_mem_nil, false_imp_iff, implies_true]
  | cons f rest ih =>
    obtain ⟨name, j⟩ := f
    rw [FieldsPlain, ih, List.forall_mem_cons]

/-- The text of a value starts with neither a blank nor a closing bracket. -/
def Opens (c : Char) : Prop := isBlank c = false ∧ c ≠ ']' ∧ c ≠ '\x7d'

/-- The first character of an integer. -/
theorem toString_int_cons (n : Int) :
    ∃ c rest, (toString n).toList = c :: rest ∧ (c = '-' ∨ c.isDigit) := by
  cases n with
  | ofNat m =>
    have htext : (toString (Int.ofNat m)).toList = Nat.toDigits 10 m := Nat.toList_repr
    cases hdigits : Nat.toDigits 10 m with
    | nil => exact absurd hdigits Nat.toDigits_ne_nil
    | cons c rest =>
      refine ⟨c, rest, htext.trans hdigits, .inr ?_⟩
      exact Nat.isDigit_of_mem_toDigits (by decide) (by decide) (hdigits ▸ List.mem_cons_self)
  | negSucc m =>
    have hneg : toString (Int.negSucc m) = "-" ++ toString (m + 1) := rfl
    exact ⟨'-', (toString (m + 1)).toList, by rw [hneg, String.toList_append]; rfl, .inl rfl⟩

/-- A character with which only a number starts. -/
theorem plain_digit {c : Char} (h : c = '-' ∨ c.isDigit) :
    Opens c ∧ c ≠ '"' ∧ c ≠ '[' ∧ c ≠ '\x7b' ∧ c ≠ 't' ∧ c ≠ 'f' ∧ c ≠ 'n' := by
  rcases h with rfl | h
  · unfold Opens
    decide
  · have hne (d : Char) (hd : d.isDigit = false) : c ≠ d := by
      rintro rfl
      rw [h] at hd
      cases hd
    refine ⟨⟨?_, hne _ rfl, hne _ rfl⟩, hne _ rfl, hne _ rfl, hne _ rfl, hne _ rfl, hne _ rfl,
      hne _ rfl⟩
    simp only [isBlank, Bool.or_eq_false_iff, beq_eq_false_iff_ne]
    exact ⟨⟨⟨hne _ rfl, hne _ rfl⟩, hne _ rfl⟩, hne _ rfl⟩

theorem write_cons {j : Json} (h : j.Plain) : ∃ c rest, j.write.toList = c :: rest ∧ Opens c := by
  have hopens {c : Char} (hc : (isBlank c || c == ']' || c == '\x7d') = false) : Opens c := by
    simp only [Bool.or_eq_false_iff, beq_eq_false_iff_ne] at hc
    exact ⟨hc.1.1, hc.1.2, hc.2⟩
  cases j with
  | null => exact ⟨_, _, rfl, hopens rfl⟩
  | bool b => cases b <;> exact ⟨_, _, rfl, hopens rfl⟩
  | int n =>
    obtain ⟨c, rest, htext, hc⟩ := toString_int_cons n
    exact ⟨c, rest, htext, (plain_digit hc).1⟩
  | str s => exact ⟨_, _, quote_toList s, hopens rfl⟩
  | arr items =>
    refine ⟨'[', (",".intercalate (writeItems items) ++ "]").toList, ?_, hopens rfl⟩
    rw [write, String.append_assoc, String.toList_append]
    rfl
  | obj fields =>
    refine ⟨'\x7b', (",".intercalate (writeFields fields) ++ "\x7d").toList, ?_, hopens rfl⟩
    rw [write, String.append_assoc, String.toList_append]
    rfl
  | float x =>
    obtain ⟨c, rest, htext, hc⟩ := head_of_takeNumber h
    exact ⟨c, rest, htext, (plain_digit hc).1⟩
  | unusable => exact h.elim

theorem skipBlanks_cons {c : Char} (h : isBlank c = false) (rest : List Char) :
    skipBlanks (c :: rest) = c :: rest := by
  simp only [skipBlanks, List.dropWhile_cons, h, Bool.false_eq_true, if_false]

/-- The text between the brackets of an array. -/
def itemsText (items : List Json) : List Char :=
  (",".intercalate (writeItems items)).toList

/-- The text between the braces of an object. -/
def fieldsText (fields : List (String × Json)) : List Char :=
  (",".intercalate (writeFields fields)).toList

theorem itemsText_singleton (j : Json) : itemsText [j] = j.write.toList := rfl

theorem itemsText_cons_cons (j j' : Json) (rest : List Json) :
    itemsText (j :: j' :: rest) = j.write.toList ++ ',' :: itemsText (j' :: rest) := by
  simp only [itemsText, writeItems, String.intercalate_cons_cons, String.toList_append]
  rw [List.append_assoc]
  rfl

theorem fieldsText_singleton (name : String) (j : Json) :
    fieldsText [(name, j)] = (quote name).toList ++ ':' :: j.write.toList := by
  have htext : fieldsText [(name, j)] = (quote name ++ ":" ++ j.write).toList := rfl
  rw [htext, String.toList_append, String.toList_append, List.append_assoc]
  rfl

theorem fieldsText_cons_cons (name : String) (j : Json) (f : String × Json)
    (rest : List (String × Json)) : fieldsText ((name, j) :: f :: rest) =
      (quote name).toList ++ ':' :: (j.write.toList ++ ',' :: fieldsText (f :: rest)) := by
  simp only [fieldsText, writeFields, String.intercalate_cons_cons, String.toList_append]
  simp only [List.append_assoc]
  rfl

theorem arr_toList (items : List Json) :
    (write (.arr items)).toList = '[' :: (itemsText items ++ [']']) := by
  rw [write, String.toList_append, String.toList_append]
  rfl

theorem obj_toList (fields : List (String × Json)) :
    (write (.obj fields)).toList = '\x7b' :: (fieldsText fields ++ ['\x7d']) := by
  rw [write, String.toList_append, String.toList_append]
  rfl

/-- The text of a value that is not empty starts like the text of its first part. -/
theorem itemsText_cons {j : Json} (h : j.Plain) (rest : List Json) :
    ∃ c cs, itemsText (j :: rest) = c :: cs ∧ Opens c := by
  obtain ⟨c, cs, htext, hc⟩ := write_cons h
  cases rest with
  | nil => exact ⟨c, cs, htext, hc⟩
  | cons j' rest =>
    rw [itemsText_cons_cons, htext]
    exact ⟨c, _, rfl, hc⟩

theorem fieldsText_cons (f : String × Json) (rest : List (String × Json)) :
    ∃ cs, fieldsText (f :: rest) = '"' :: cs := by
  obtain ⟨name, j⟩ := f
  cases rest with
  | nil =>
    rw [fieldsText_singleton, quote_toList]
    exact ⟨_, rfl⟩
  | cons f' rest =>
    rw [fieldsText_cons_cons, quote_toList]
    exact ⟨_, rfl⟩

theorem skipBlanks_ends {c : Char} (h : c = ',' ∨ c = ']' ∨ c = '\x7d') (rest : List Char) :
    skipBlanks (c :: rest) = c :: rest := by
  rcases h with rfl | rfl | rfl <;> rfl

/-! ## Reading -/

/-- With this much fuel, a value is read up to what follows it. -/
def ReadsValues (fuel : Nat) : Prop :=
  ∀ (j : Json) (rest : List Char), j.Plain → Ends rest → 2 * j.write.toList.length ≤ fuel →
    takeValue fuel (j.write.toList ++ rest) = some (j, rest)

/-- With this much fuel, elements are read up to the closing bracket. -/
def ReadsItems (fuel : Nat) : Prop :=
  ∀ (j : Json) (items done : List Json) (rest : List Char), ItemsPlain (j :: items) →
    2 * (itemsText (j :: items)).length + 1 ≤ fuel →
    takeItems fuel done (itemsText (j :: items) ++ ']' :: rest) =
      some (.arr (done.reverse ++ j :: items), rest)

/-- With this much fuel, fields are read up to the closing brace. -/
def ReadsFields (fuel : Nat) : Prop :=
  ∀ (f : String × Json) (fields done : List (String × Json)) (rest : List Char),
    FieldsPlain (f :: fields) → 2 * (fieldsText (f :: fields)).length + 1 ≤ fuel →
    takeFields fuel done true (fieldsText (f :: fields) ++ '\x7d' :: rest) =
      some (.obj (done.reverse ++ f :: fields), rest)

/-- What starts like a number is read as a number. -/
theorem takeValue_number (fuel : Nat) {c : Char} (hc : c = '-' ∨ c.isDigit) (rest : List Char) :
    takeValue (fuel + 1) (c :: rest) = takeNumber (c :: rest) := by
  obtain ⟨hopens, h₁, h₂, h₃, h₄, h₅, h₆⟩ := plain_digit hc
  rw [takeValue, skipBlanks_cons hopens.1]
  split <;> rename_i heq
  · cases heq
  all_goals first
    | (cases heq; contradiction)
    | rfl

theorem takeValue_int {fuel : Nat} {n : Int} (h : Fits n) {rest : List Char} (hrest : Ends rest) :
    takeValue (fuel + 1) ((toString n).toList ++ rest) = some (.int n, rest) := by
  have hnumber := takeNumber_write h hrest
  obtain ⟨c, cs, htext, hc⟩ := toString_int_cons n
  rw [htext, List.cons_append] at hnumber ⊢
  rw [takeValue_number fuel hc, hnumber]

theorem takeValue_float {fuel : Nat} {x : Binary64} (h : FloatReads x) {rest : List Char}
    (hrest : Ends rest) : takeValue (fuel + 1) ((writeFloat x).toList ++ rest) = some (.float x, rest) := by
  have hnumber := takeNumber_local hrest h
  obtain ⟨c, cs, htext, hc⟩ := head_of_takeNumber h
  rw [htext, List.cons_append] at hnumber ⊢
  rw [takeValue_number fuel hc, hnumber]
  rfl

theorem takeValue_str (fuel : Nat) (s : String) (rest : List Char) :
    takeValue (fuel + 1) ((quote s).toList ++ rest) = some (.str s, rest) := by
  have hquoted := takeQuoted_quote s rest
  rw [quote_toList, List.cons_append, List.append_assoc]
  simp only [List.cons_append, List.nil_append, takeValue,
    skipBlanks_cons (show isBlank '"' = false from rfl), hquoted]

theorem takeValue_arr (fuel : Nat) {c : Char} {cs : List Char} (hc : Opens c) :
    takeValue (fuel + 1) ('[' :: c :: cs) = takeItems fuel [] (c :: cs) := by
  simp only [takeValue, skipBlanks_cons (show isBlank '[' = false from rfl), skipBlanks_cons hc.1]
  split
  · rename_i heq
    cases heq
    exact absurd rfl hc.2.1
  · rfl

theorem takeValue_obj (fuel : Nat) (cs : List Char) :
    takeValue (fuel + 1) ('\x7b' :: '"' :: cs) = takeFields fuel [] true ('"' :: cs) := by
  simp only [takeValue, skipBlanks_cons (show isBlank '\x7b' = false from rfl),
    skipBlanks_cons (show isBlank '"' = false from rfl)]
  rfl

theorem readsValues_succ {fuel : Nat} (hitems : ReadsItems fuel) (hfields : ReadsFields fuel) :
    ReadsValues (fuel + 1) := by
  intro j rest hj hrest hfuel
  cases j with
  | null => rfl
  | bool b => cases b <;> rfl
  | int n => exact takeValue_int hj hrest
  | str s => exact takeValue_str fuel s rest
  | float x => exact takeValue_float hj hrest
  | unusable => exact hj.elim
  | arr items =>
    cases items with
    | nil => rfl
    | cons j items =>
      rw [arr_toList] at hfuel ⊢
      simp only [List.length_cons, List.length_append, List.length_nil] at hfuel
      have hread := hitems j items [] rest hj (by omega)
      obtain ⟨c, cs, htext, hc⟩ := itemsText_cons hj.1 items
      rw [htext] at hread ⊢
      simp only [List.cons_append, List.append_assoc, List.nil_append] at hread ⊢
      rw [takeValue_arr fuel hc, hread]
      rfl
  | obj fields =>
    cases fields with
    | nil => rfl
    | cons f fields =>
      rw [obj_toList] at hfuel ⊢
      simp only [List.length_cons, List.length_append, List.length_nil] at hfuel
      have hread := hfields f fields [] rest hj (by omega)
      obtain ⟨cs, htext⟩ := fieldsText_cons f fields
      rw [htext] at hread ⊢
      simp only [List.cons_append, List.append_assoc, List.nil_append] at hread ⊢
      rw [takeValue_obj, hread]
      rfl

theorem readsItems_succ {fuel : Nat} (hvalues : ReadsValues fuel) (hitems : ReadsItems fuel) :
    ReadsItems (fuel + 1) := by
  intro j items done rest hplain hfuel
  cases items with
  | nil =>
    rw [itemsText_singleton] at hfuel ⊢
    have hvalue := hvalues j (']' :: rest) hplain.1 (.cons (.inr (.inl rfl)) rest) (by omega)
    simp only [takeItems, hvalue, skipBlanks_ends (.inr (.inl rfl)), List.reverse_cons]
  | cons j' items =>
    rw [itemsText_cons_cons] at hfuel ⊢
    simp only [List.length_append, List.length_cons] at hfuel
    have hvalue := hvalues j (',' :: (itemsText (j' :: items) ++ ']' :: rest)) hplain.1
      (.cons (.inl rfl) _) (by omega)
    have hrest := hitems j' items (j :: done) rest hplain.2 (by omega)
    simp only [List.append_assoc, List.cons_append, takeItems, hvalue, skipBlanks_ends (.inl rfl),
      hrest, List.reverse_cons, List.nil_append]

theorem readsFields_succ {fuel : Nat} (hvalues : ReadsValues fuel) (hfields : ReadsFields fuel) :
    ReadsFields (fuel + 1) := by
  rintro ⟨name, j⟩ fields done rest hplain hfuel
  cases fields with
  | nil =>
    rw [fieldsText_singleton] at hfuel ⊢
    simp only [List.length_append, List.length_cons] at hfuel
    have hvalue := hvalues j ('\x7d' :: rest) hplain.1 (.cons (.inr (.inr rfl)) rest) (by omega)
    have hquoted := takeQuoted_quote name (':' :: (j.write.toList ++ '\x7d' :: rest))
    simp only [quote_toList, List.cons_append, List.append_assoc, List.nil_append, takeFields,
      skipBlanks_cons (show isBlank '"' = false from rfl), hquoted,
      skipBlanks_cons (show isBlank ':' = false from rfl), hvalue,
      skipBlanks_ends (.inr (.inr rfl)), Option.isSome_some, Bool.and_self, if_true,
      Option.getD_some, List.reverse_cons]
  | cons f fields =>
    rw [fieldsText_cons_cons] at hfuel ⊢
    simp only [List.length_append, List.length_cons] at hfuel
    have hvalue := hvalues j (',' :: (fieldsText (f :: fields) ++ '\x7d' :: rest)) hplain.1
      (.cons (.inl rfl) _) (by omega)
    have hrest := hfields f fields ((name, j) :: done) rest hplain.2 (by omega)
    have hquoted := takeQuoted_quote name
      (':' :: (j.write.toList ++ ',' :: (fieldsText (f :: fields) ++ '\x7d' :: rest)))
    simp only [quote_toList, List.cons_append, List.append_assoc, List.nil_append, takeFields,
      skipBlanks_cons (show isBlank '"' = false from rfl), hquoted,
      skipBlanks_cons (show isBlank ':' = false from rfl), hvalue, skipBlanks_ends (.inl rfl),
      Option.isSome_some, Bool.and_self, Option.getD_some, hrest, List.reverse_cons]

/-- Induction on the fuel: every part of a value is read with less than the value itself. -/
theorem reads (fuel : Nat) : ReadsValues fuel ∧ ReadsItems fuel ∧ ReadsFields fuel := by
  induction fuel with
  | zero =>
    refine ⟨fun j rest hj _ hfuel => ?_, fun _ _ _ _ _ hfuel => ?_, fun _ _ _ _ _ hfuel => ?_⟩
    · obtain ⟨c, cs, htext, -⟩ := write_cons hj
      rw [htext, List.length_cons] at hfuel
      omega
    · omega
    · omega
  | succ fuel ih =>
    obtain ⟨hvalues, hitems, hfields⟩ := ih
    exact ⟨readsValues_succ hitems hfields, readsItems_succ hvalues hitems,
      readsFields_succ hvalues hfields⟩

theorem read_write {j : Json} (h : j.Plain) : read j.write = some j := by
  have hvalue := (reads (2 * j.write.toList.length + 2)).1 j [] h .nil (by omega)
  rw [List.append_nil] at hvalue
  simp only [read, hvalue]
  rfl

end Lineage.Json
