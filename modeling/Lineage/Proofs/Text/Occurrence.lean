/-
  Lineage.Proofs.Text.Occurrence

  The first place at which a text occurs in another.

  `Value.occurrence` finds the least one (`occurrence_eq_some_iff`).  It makes no difference
  whether characters are compared or the bytes that encode them: the least offset at which
  the bytes occur is the start of a character, and the characters before it are as many as
  the least place says (`first_utf8_iff`).  This is so as no byte inside the encoding of a
  character can be the first byte of one.
-/
import Lineage.Value.Sequence
import Mathlib.Tactic.ByContra

namespace Lineage.Text

/-! ## The least place -/

/-- The least place at which a list occurs in another. -/
structure First {α : Type} (needle hay : List α) (k : Nat) : Prop where
  here : needle <+: hay.drop k
  least : ∀ j < k, ¬ needle <+: hay.drop j

section

variable {α : Type} {needle hay : List α} {a : α} {k : Nat}

theorem First.unique {l : Nat} (h : First needle hay k) (h' : First needle hay l) : k = l := by
  rcases Nat.lt_trichotomy k l with hlt | heq | hgt
  · exact absurd h.here (h'.least k hlt)
  · exact heq
  · exact absurd h'.here (h.least l hgt)

theorem first_zero_iff : First needle hay 0 ↔ needle <+: hay :=
  ⟨fun h => h.here, fun h => ⟨h, fun _ hj => absurd hj (Nat.not_lt_zero _)⟩⟩

theorem first_succ_iff : First needle (a :: hay) (k + 1) ↔
    ¬ needle <+: a :: hay ∧ First needle hay k := by
  constructor
  · rintro ⟨hhere, hleast⟩
    refine ⟨hleast 0 (Nat.succ_pos k), hhere, fun j hj => ?_⟩
    exact hleast (j + 1) (Nat.succ_lt_succ hj)
  · rintro ⟨hnot, hhere, hleast⟩
    refine ⟨hhere, fun j hj => ?_⟩
    cases j with
    | zero => exact hnot
    | succ j => exact hleast j (Nat.lt_of_succ_lt_succ hj)

theorem First.le_length (h : First needle hay k) : k ≤ hay.length := by
  by_contra hlt
  -- Past the end only nothing occurs, and that occurs at the start already.
  have hdrop : hay.drop k = [] := List.drop_eq_nil_of_le (by omega)
  have hnil : needle = [] := List.prefix_nil.mp (hdrop ▸ h.here)
  exact h.least 0 (by omega) (hnil ▸ List.nil_prefix)

/-- A text that is not empty and occurs somewhere ends within the other one. -/
theorem First.lt_length (h : First needle hay k) (hneedle : needle ≠ []) : k < hay.length := by
  by_contra hle
  have hdrop : hay.drop k = [] := List.drop_eq_nil_of_le (by omega)
  exact hneedle (List.prefix_nil.mp (hdrop ▸ h.here))

end

/-! ## Among characters -/

theorem occurrence_eq_some_iff {needle hay : List Char} {k : Nat} :
    Value.occurrence needle hay = some k ↔ First needle hay k := by
  induction hay generalizing k with
  | nil =>
    rw [Value.occurrence, Option.ite_none_right_eq_some, Option.some.injEq]
    constructor
    · rintro ⟨rfl, rfl⟩
      exact first_zero_iff.mpr List.nil_prefix
    · intro h
      exact ⟨List.prefix_nil.mp (List.drop_nil ▸ h.here), (Nat.le_zero.mp h.le_length).symm⟩
  | cons c hay ih =>
    rw [Value.occurrence]
    split
    · rename_i hprefix
      have hzero : First needle (c :: hay) 0 :=
        first_zero_iff.mpr (List.isPrefixOf_iff_prefix.mp hprefix)
      exact ⟨fun h => Option.some.inj h ▸ hzero, fun h => congrArg some (hzero.unique h)⟩
    · rename_i hprefix
      have hnot : ¬ needle <+: c :: hay := fun h => hprefix (List.isPrefixOf_iff_prefix.mpr h)
      cases k with
      | zero =>
        refine ⟨fun h => ?_, fun h => absurd (first_zero_iff.mp h) hnot⟩
        obtain ⟨j, -, hj⟩ := Option.map_eq_some_iff.mp h
        exact absurd hj (Nat.succ_ne_zero j)
      | succ k =>
        rw [first_succ_iff, Option.map_eq_some_iff]
        constructor
        · rintro ⟨j, hj, hjk⟩
          cases hjk
          exact ⟨hnot, ih.mp hj⟩
        · rintro ⟨-, h⟩
          exact ⟨k, ih.mpr h, rfl⟩

theorem occurrence_eq_none_iff {needle hay : List Char} :
    Value.occurrence needle hay = none ↔ ∀ k, ¬ needle <+: hay.drop k := by
  constructor
  · -- A text that occurs somewhere occurs at a least place, which would have been found.
    intro h k hk
    induction k using Nat.strongRecOn with
    | ind k ih =>
      have hfirst : First needle hay k := ⟨hk, ih⟩
      rw [occurrence_eq_some_iff.mpr hfirst] at h
      cases h
  · intro h
    cases hocc : Value.occurrence needle hay with
    | none => rfl
    | some k => exact absurd (occurrence_eq_some_iff.mp hocc).here (h k)

/-! ## Among bytes -/

/-- The bytes that encode characters. -/
def utf8 (chars : List Char) : List UInt8 :=
  chars.flatMap String.utf8EncodeChar

@[simp] theorem utf8_nil : utf8 [] = [] := rfl

@[simp] theorem utf8_cons (c : Char) (chars : List Char) :
    utf8 (c :: chars) = String.utf8EncodeChar c ++ utf8 chars := List.flatMap_cons

theorem utf8_append (front back : List Char) : utf8 (front ++ back) = utf8 front ++ utf8 back :=
  List.flatMap_append

theorem utf8_toList (s : String) : s.toUTF8.data.toList = utf8 s.toList := by
  have hbytes : s.toUTF8 = s.toList.utf8Encode := by
    rw [String.toUTF8_eq_toByteArray, ← String.toByteArray_ofList, String.ofList_toList]
  rw [hbytes, List.utf8Encode, List.data_toByteArray]
  rfl

theorem encoding_pos (c : Char) : 0 < (String.utf8EncodeChar c).length := by
  rw [String.length_utf8EncodeChar]
  exact c.utf8Size_pos

theorem utf8_eq_nil_iff {chars : List Char} : utf8 chars = [] ↔ chars = [] := by
  cases chars with
  | nil => simp
  | cons c chars => simp

/-- The first character can be told from the bytes. -/
theorem encoding_inj {c d : Char} {front back : List UInt8}
    (h : String.utf8EncodeChar c ++ front = String.utf8EncodeChar d ++ back) : c = d := by
  have hbytes := congrArg (fun bytes => bytes.toByteArray.utf8DecodeChar? 0) h
  simpa only [List.toByteArray_append, ByteArray.utf8DecodeChar?_utf8EncodeChar_append,
    Option.some.injEq] using hbytes

theorem utf8_prefix_iff {front chars : List Char} : utf8 front <+: utf8 chars ↔ front <+: chars := by
  constructor
  · intro h
    induction front generalizing chars with
    | nil => exact List.nil_prefix
    | cons c front ih =>
      cases chars with
      | nil => exact absurd (List.prefix_nil.mp h) (by simp)
      | cons d chars =>
        rw [utf8_cons, utf8_cons] at h
        obtain ⟨rest, hrest⟩ := h
        rw [List.append_assoc] at hrest
        obtain rfl := encoding_inj hrest
        have htail : utf8 front <+: utf8 chars := ⟨rest, List.append_cancel_left hrest⟩
        exact List.cons_prefix_cons.mpr ⟨rfl, ih htail⟩
  · rintro ⟨rest, rfl⟩
    rw [utf8_append]
    exact List.prefix_append _ _

theorem drop_utf8_take (chars : List Char) (k : Nat) :
    (utf8 chars).drop (utf8 (chars.take k)).length = utf8 (chars.drop k) := by
  conv => lhs; rw [← List.take_append_drop k chars, utf8_append, List.take_append_drop]
  exact List.drop_left

theorem utf8_take_lt {chars : List Char} {j k : Nat} (hjk : j < k) (hk : k ≤ chars.length) :
    (utf8 (chars.take j)).length < (utf8 (chars.take k)).length := by
  obtain ⟨n, rfl⟩ := Nat.exists_eq_add_of_lt hjk
  have hsplit : chars.take (j + n + 1) = chars.take j ++ (chars.drop j).take (n + 1) := by
    rw [Nat.add_assoc, List.take_add]
  have hne : (chars.drop j).take (n + 1) ≠ [] := by
    intro hnil
    have hlength := congrArg List.length hnil
    rw [List.length_take, List.length_drop, List.length_nil] at hlength
    omega
  rw [hsplit, utf8_append, List.length_append]
  exact Nat.lt_add_of_pos_right (List.length_pos_iff.mpr (mt utf8_eq_nil_iff.mp hne))

/-- An offset is where a character starts, or the end, or the byte there starts no character. -/
theorem boundary_or_inside (chars : List Char) {offset : Nat} (h : offset ≤ (utf8 chars).length) :
    (∃ k ≤ chars.length, offset = (utf8 (chars.take k)).length) ∨
      ∃ b, ((utf8 chars).drop offset).head? = some b ∧ ¬ b.IsUTF8FirstByte := by
  induction chars generalizing offset with
  | nil => exact .inl ⟨0, Nat.le_refl _, Nat.le_zero.mp h⟩
  | cons c chars ih =>
    by_cases hzero : offset = 0
    · exact .inl ⟨0, Nat.zero_le _, hzero⟩
    by_cases hin : offset < (String.utf8EncodeChar c).length
    · refine .inr ⟨(String.utf8EncodeChar c)[offset], ?_, ?_⟩
      · rw [utf8_cons, List.head?_drop, List.getElem?_append_left hin, List.getElem?_eq_getElem hin]
      · rw [UInt8.isUTF8FirstByte_getElem_utf8EncodeChar]
        exact hzero
    · obtain ⟨rest, rfl⟩ := Nat.exists_eq_add_of_le (Nat.le_of_not_lt hin)
      rw [utf8_cons, List.length_append, Nat.add_le_add_iff_left] at h
      rcases ih h with ⟨k, hk, rfl⟩ | ⟨b, hb, hinside⟩
      · refine .inl ⟨k + 1, Nat.succ_le_succ hk, ?_⟩
        rw [List.take_succ_cons, utf8_cons, List.length_append]
      · refine .inr ⟨b, ?_, hinside⟩
        rw [utf8_cons, List.drop_append, List.drop_eq_nil_of_le (Nat.le_add_right _ _),
          Nat.add_sub_cancel_left, List.nil_append, hb]

/-- Bytes of some characters occur only where a character starts. -/
theorem boundary_of_prefix {needle hay : List Char} {offset : Nat} (hneedle : needle ≠ [])
    (h : utf8 needle <+: (utf8 hay).drop offset) :
    ∃ k ≤ hay.length, offset = (utf8 (hay.take k)).length ∧ needle <+: hay.drop k := by
  have hle : offset ≤ (utf8 hay).length := by
    by_contra hlt
    rw [List.drop_eq_nil_of_le (by omega)] at h
    exact hneedle (utf8_eq_nil_iff.mp (List.prefix_nil.mp h))
  rcases boundary_or_inside hay hle with ⟨k, hk, rfl⟩ | ⟨b, hb, hinside⟩
  · rw [drop_utf8_take, utf8_prefix_iff] at h
    exact ⟨k, hk, rfl, h⟩
  · -- The bytes start with the first byte of a character.
    obtain ⟨c, rest, rfl⟩ := List.exists_cons_of_ne_nil hneedle
    obtain ⟨tail, htail⟩ := h
    rw [← htail, utf8_cons, List.append_assoc, List.head?_eq_getElem?,
      List.getElem?_append_left (encoding_pos c), List.getElem?_eq_getElem (encoding_pos c),
      Option.some.injEq] at hb
    exact absurd (hb ▸ UInt8.isUTF8FirstByte_getElem_utf8EncodeChar.mpr rfl) hinside

/-- The least offset at which the bytes of a text occur in those of another is the number of bytes
before the least place at which the text occurs in the other. -/
theorem first_utf8_iff {needle hay : List Char} {offset : Nat} :
    First (utf8 needle) (utf8 hay) offset ↔
      ∃ k, First needle hay k ∧ offset = (utf8 (hay.take k)).length := by
  by_cases hneedle : needle = []
  · subst hneedle
    have hzero {α : Type} (hay : List α) : First [] hay 0 := first_zero_iff.mpr List.nil_prefix
    constructor
    · intro h
      exact ⟨0, hzero hay, h.unique (hzero _)⟩
    · rintro ⟨k, hk, rfl⟩
      rw [hk.unique (hzero hay)]
      exact hzero _
  constructor
  · intro h
    obtain ⟨k, hk, rfl, hhere⟩ := boundary_of_prefix hneedle h.here
    refine ⟨k, ⟨hhere, fun j hj hthere => ?_⟩, rfl⟩
    refine h.least _ (utf8_take_lt hj hk) ?_
    rw [drop_utf8_take]
    exact utf8_prefix_iff.mpr hthere
  · rintro ⟨k, hk, rfl⟩
    refine ⟨?_, fun offset hlt hthere => ?_⟩
    · rw [drop_utf8_take]
      exact utf8_prefix_iff.mpr hk.here
    · obtain ⟨j, hj, rfl, hfound⟩ := boundary_of_prefix hneedle hthere
      -- A place with fewer bytes before it has fewer characters before it.
      have hlt' : j < k := by
        by_contra hle
        rcases Nat.lt_or_eq_of_le (Nat.le_of_not_lt hle) with hkj | rfl
        · exact absurd (utf8_take_lt hkj hj) (Nat.lt_asymm hlt)
        · exact Nat.lt_irrefl _ hlt
      exact hk.least j hlt' hfound

end Lineage.Text
