/-
  Lineage.Proofs.Json.Numbers

  An integer that fits 64 bits, signed or unsigned, is read back from its text.

  The digits of a number are taken up to what follows them, and gathered into the number
  without loss (`gather_whole`).  `takeNumber_write` puts the sign in front of them.  A
  number of any kind is read no further than its text (`takeNumber_local`).
-/
import Mathlib.Algebra.Group.Int.Defs
import Lineage.Json.Number

namespace Lineage.Json

/-! ## Digits -/

theorem digit?_of_isDigit {c : Char} (h : c.isDigit) :
    Numeral.digit? c = some (c.toNat - '0'.toNat) := by
  simp only [Char.isDigit, Bool.and_eq_true, decide_eq_true_eq] at h
  have hbounds : ('0' ≤ c && c ≤ '9') = true := by
    simp only [Bool.and_eq_true, decide_eq_true_eq]
    exact h
  rw [Numeral.digit?, if_pos hbounds]

/-- What may follow a value: nothing, a comma or a closing bracket. -/
def Ends (rest : List Char) : Prop :=
  ∀ c ∈ rest.head?, c = ',' ∨ c = ']' ∨ c = '\x7d'

theorem Ends.nil : Ends [] := by
  intro c hc
  cases hc

theorem Ends.cons {c : Char} (h : c = ',' ∨ c = ']' ∨ c = '\x7d') (rest : List Char) :
    Ends (c :: rest) := by
  intro d hd
  cases hd
  exact h

theorem Ends.no_digit {c : Char} {rest : List Char} (h : Ends (c :: rest)) :
    Numeral.digit? c = none := by
  rcases h c rfl with rfl | rfl | rfl <;> rfl

/-- Digits are taken up to what follows them. -/
theorem takeDigits_append {digits : List Char} (h : ∀ c ∈ digits, c.isDigit) {rest : List Char}
    (hrest : Ends rest) :
    takeDigits (digits ++ rest) = (digits.map fun c => c.toNat - '0'.toNat, rest) := by
  induction digits with
  | nil =>
    cases rest with
    | nil => rfl
    | cons c rest => simp only [List.nil_append, takeDigits, hrest.no_digit, List.map_nil]
  | cons c digits ih =>
    have hc := digit?_of_isDigit (h c List.mem_cons_self)
    have hrest := ih fun d hd => h d (List.mem_cons_of_mem _ hd)
    simp only [List.cons_append, takeDigits, hc, hrest, List.map_cons]

theorem le_ofDigitChars (digits : List Char) (n : Nat) : n ≤ Nat.ofDigitChars 10 digits n := by
  induction digits generalizing n with
  | nil => exact Nat.le_of_eq Nat.ofDigitChars_nil.symm
  | cons c digits ih =>
    rw [Nat.ofDigitChars_cons]
    have hle := ih (10 * n + (c.toNat - '0'.toNat))
    omega

/-- The digits of a number that fits are gathered into the number. -/
theorem gather_whole (digits : List Char) (n : Nat)
    (h : Nat.ofDigitChars 10 digits n ≤ maxSignificand) :
    (digits.map fun c => c.toNat - '0'.toNat).foldl Gathered.whole ⟨n, 0, 0, false⟩ =
      ⟨Nat.ofDigitChars 10 digits n, 0, 0, false⟩ := by
  induction digits generalizing n with
  | nil => rw [Nat.ofDigitChars_nil]; rfl
  | cons c digits ih =>
    rw [Nat.ofDigitChars_cons] at h ⊢
    have hle := le_ofDigitChars digits (10 * n + (c.toNat - '0'.toNat))
    have hstep : Gathered.whole ⟨n, 0, 0, false⟩ (c.toNat - '0'.toNat) =
        ⟨10 * n + (c.toNat - '0'.toNat), 0, 0, false⟩ := by
      rw [Nat.mul_comm 10 n] at h hle ⊢
      simp only [Gathered.whole]
      rw [if_pos ⟨trivial, by omega⟩]
    rw [List.map_cons, List.foldl_cons, hstep]
    exact ih _ h

/-- The digits of a number as the reader has them. -/
def digitsOf (n : Nat) : List Nat :=
  (Nat.toDigits 10 n).map fun c => c.toNat - '0'.toNat

theorem digitsOf_ne_nil (n : Nat) : digitsOf n ≠ [] := by
  rw [digitsOf, Ne, List.map_eq_nil_iff]
  exact Nat.toDigits_ne_nil

/-- No number but zero starts with the digit zero. -/
theorem head_digitsOf {n : Nat} (h : (digitsOf n).head? = some 0) : (digitsOf n).length = 1 := by
  have hlow {m : Nat} (hm : m < 10) : digitsOf m = [m] := by
    rw [digitsOf, Nat.toDigits_of_lt_base hm]
    decide +revert
  -- What stands before the last digit is a number of its own, and it is not zero.
  have hpositive : ∀ m, 0 < m → (digitsOf m).head? ≠ some 0 := by
    intro m
    induction m using Nat.strongRecOn with
    | _ m ih =>
      intro hm
      by_cases hlt : m < 10
      · rw [hlow hlt, List.head?_cons, Ne, Option.some.injEq]
        omega
      · have hstep : digitsOf m = digitsOf (m / 10) ++ [(m % 10).digitChar.toNat - '0'.toNat] := by
          rw [digitsOf, Nat.toDigits_of_base_le (by decide) (Nat.le_of_not_lt hlt), List.map_append]
          rfl
        rw [hstep, List.head?_append, Option.or_of_isSome (List.isSome_head?.mpr (digitsOf_ne_nil _))]
        exact ih _ (by omega) (by omega)
  rcases Nat.eq_zero_or_pos n with rfl | hn
  · rfl
  · exact absurd h (hpositive n hn)

theorem takeDigits_number (n : Nat) {rest : List Char} (hrest : Ends rest) :
    takeDigits ((toString n).toList ++ rest) = (digitsOf n, rest) := by
  rw [Nat.toString_eq_repr, Nat.toList_repr]
  exact takeDigits_append (fun c hc => Nat.isDigit_of_mem_toDigits (by decide) (by decide) hc) hrest

theorem gather_number {n : Nat} (h : n ≤ maxSignificand) :
    (digitsOf n).foldl Gathered.whole ⟨0, 0, 0, false⟩ = ⟨n, 0, 0, false⟩ := by
  have hn : Nat.ofDigitChars 10 (Nat.toDigits 10 n) 0 = n := Nat.ofDigitChars_ten_toDigits
  rw [digitsOf, gather_whole _ _ (hn.symm ▸ h), hn]

/-! ## Numbers -/

/-- The integers that are written so that they are read as integers again. -/
def Fits (n : Int) : Prop := -2 ^ 63 ≤ n ∧ n ≤ maxSignificand

theorem Fits.int64 (n : Int64) : Fits n.toInt := by
  have hlo : -2 ^ 63 ≤ n.toInt := n.le_toInt
  have hhi : n.toInt < 2 ^ 63 := n.toInt_lt
  refine ⟨hlo, ?_⟩
  simp only [maxSignificand, UInt64.size]
  omega

/-- The sign of a number in front of its digits. -/
def Signed (text : List Char) (negative : Bool) (body : List Char) : Prop :=
  (negative = true ∧ text = '-' :: body) ∨
    (negative = false ∧ text = body ∧ ∀ rest, text ≠ '-' :: rest)

theorem takeNumber_signed {text body : List Char} {negative : Bool} (h : Signed text negative body) :
    takeNumber text = takeUnsigned negative body := by
  rcases h with ⟨rfl, rfl⟩ | ⟨rfl, rfl, hno⟩
  · rfl
  · unfold takeNumber
    split
    · exact absurd rfl (hno _)
    · rfl

/-- A number without point and exponent. -/
theorem takeNumber_whole {text body rest : List Char} {negative : Bool} {digits : List Nat}
    (hsign : Signed text negative body) (hdigits : takeDigits body = (digits, rest))
    (hrest : Ends rest) (hne : digits ≠ [])
    (hlead : digits.head? = some 0 → digits.length = 1) :
    takeNumber text = some (number negative digits [] true 0, rest) := by
  have hok : ¬ (digits = [] ∨ (digits.head? = some 0 ∧ digits.length ≠ 1)) := by
    rintro (h | ⟨h, h'⟩)
    · exact hne h
    · exact h' (hlead h)
  rw [takeNumber_signed hsign, takeUnsigned, hdigits]
  dsimp only
  rw [if_neg hok]
  -- Neither a point nor an exponent follows.
  cases rest with
  | nil => rfl
  | cons c rest => rcases hrest c rfl with rfl | rfl | rfl <;> rfl

theorem takeNumber_write {n : Int} (h : Fits n) {rest : List Char} (hrest : Ends rest) :
    takeNumber ((toString n).toList ++ rest) = some (.int n, rest) := by
  obtain ⟨hlo, hhi⟩ := h
  cases n with
  | ofNat m =>
    have hm : m ≤ maxSignificand := by
      simp only [Int.ofNat_eq_natCast] at hhi
      omega
    have hsign : Signed ((toString m).toList ++ rest) false ((toString m).toList ++ rest) := by
      have hdigits : ∀ c ∈ (toString m).toList, c.isDigit := by
        rw [Nat.toString_eq_repr, Nat.toList_repr]
        exact fun c hc => Nat.isDigit_of_mem_toDigits (by decide) (by decide) hc
      refine .inr ⟨rfl, rfl, fun after hafter => ?_⟩
      have hne : (toString m).toList ≠ [] := by
        rw [Nat.toString_eq_repr, Nat.toList_repr]
        exact Nat.toDigits_ne_nil
      obtain ⟨c, cs, hcs⟩ := List.exists_cons_of_ne_nil hne
      rw [hcs, List.cons_append, List.cons.injEq] at hafter
      have hdash := hdigits c (hcs ▸ List.mem_cons_self)
      rw [hafter.1] at hdash
      exact absurd hdash (by decide)
    refine (takeNumber_whole hsign (takeDigits_number m hrest) hrest (digitsOf_ne_nil m)
      head_digitsOf).trans ?_
    simp only [number, gather_number hm, List.foldl_nil]
    rfl
  | negSucc m =>
    have hm : m + 1 ≤ 0x8000000000000000 := by
      simp only [Int.negSucc_eq] at hlo
      omega
    have hfits : m + 1 ≤ maxSignificand := Nat.le_trans hm (by decide)
    have htext : (toString (Int.negSucc m)).toList ++ rest =
        '-' :: ((toString (m + 1)).toList ++ rest) := by
      have hneg : toString (Int.negSucc m) = "-" ++ toString (m + 1) := rfl
      rw [hneg, String.toList_append]
      rfl
    rw [htext]
    refine (takeNumber_whole (.inl ⟨rfl, rfl⟩) (takeDigits_number (m + 1) hrest) hrest
      (digitsOf_ne_nil _) head_digitsOf).trans ?_
    simp only [number, gather_number hfits, List.foldl_nil, and_self, if_true, Bool.not_true,
      Bool.false_eq_true, if_false, Nat.succ_ne_zero, if_pos hm]
    rfl

/-! ## What follows a number -/

/-- Digits end where a text ends after which no digit follows. -/
theorem takeDigits_local (text : List Char) {rest : List Char} (hrest : Ends rest) :
    takeDigits (text ++ rest) = ((takeDigits text).1, (takeDigits text).2 ++ rest) := by
  induction text with
  | nil =>
    cases rest with
    | nil => rfl
    | cons c rest => simp only [List.nil_append, takeDigits, hrest.no_digit]
  | cons c text ih =>
    cases hc : Numeral.digit? c with
    | none => simp only [List.cons_append, takeDigits, hc]
    | some d => simp only [List.cons_append, takeDigits, hc, ih]

theorem takeMagnitude_local {negative : Bool} {text rest after : List Char} {e : Option Int}
    (hrest : Ends rest) (h : takeMagnitude negative text = some (e, after)) :
    takeMagnitude negative (text ++ rest) = some (e, after ++ rest) := by
  unfold takeMagnitude at h ⊢
  rw [takeDigits_local text hrest]
  generalize takeDigits text = found at h
  rcases found with ⟨_ | ⟨d, digits⟩, left⟩
  · cases h
  · cases h
    rfl

/-- Nothing of what ends a number is part of an exponent. -/
theorem takeExponent_ends {rest : List Char} (hrest : Ends rest) : takeExponent rest = some (none, rest) := by
  cases rest with
  | nil => rfl
  | cons c rest => rcases hrest c rfl with rfl | rfl | rfl <;> rfl

theorem takeExponent_local {text rest after : List Char} {e : Option Int} (hrest : Ends rest)
    (h : takeExponent text = some (e, after)) : takeExponent (text ++ rest) = some (e, after ++ rest) := by
  cases text with
  | nil =>
    cases h
    exact takeExponent_ends hrest
  | cons c text =>
    simp only [List.cons_append, takeExponent] at h ⊢
    by_cases hc : c = 'e' ∨ c = 'E'
    · rw [if_pos hc] at h ⊢
      cases text with
      | nil => cases h
      | cons d text =>
        simp only [List.cons_append]
        split at h
        · rename_i heq
          cases heq
          exact takeMagnitude_local hrest h
        · rename_i heq
          cases heq
          exact takeMagnitude_local hrest h
        · rename_i hminus hplus
          split
          · rename_i heq
            cases heq
            exact absurd rfl (hminus _)
          · rename_i heq
            cases heq
            exact absurd rfl (hplus _)
          · exact takeMagnitude_local hrest h
    · rw [if_neg hc] at h ⊢
      cases h
      rfl

theorem takeFraction_local {text rest after : List Char} {f : Option (List Nat)} (hrest : Ends rest)
    (h : takeFraction text = some (f, after)) : takeFraction (text ++ rest) = some (f, after ++ rest) := by
  cases text with
  | nil =>
    cases h
    cases rest with
    | nil => rfl
    | cons c rest => rcases hrest c rfl with rfl | rfl | rfl <;> rfl
  | cons c text =>
    by_cases hc : c = '.'
    · subst hc
      simp only [List.cons_append, takeFraction, takeDigits_local text hrest] at h ⊢
      split at h
      · cases h
      · rename_i hdigits
        cases h
        exact if_neg hdigits
    · have hkept (tail : List Char) : takeFraction (c :: tail) = some (none, c :: tail) := by
        unfold takeFraction
        split
        · rename_i heq
          cases heq
          exact absurd rfl hc
        · rfl
      rw [hkept] at h
      cases h
      exact hkept _

theorem takeUnsigned_local {negative : Bool} {text rest after : List Char} {j : Json}
    (hrest : Ends rest) (h : takeUnsigned negative text = some (j, after)) :
    takeUnsigned negative (text ++ rest) = some (j, after ++ rest) := by
  unfold takeUnsigned at h ⊢
  rw [takeDigits_local text hrest]
  dsimp only at h ⊢
  split at h
  · cases h
  · rename_i hwhole
    obtain ⟨⟨f, left⟩, hfraction, h⟩ := Option.bind_eq_some_iff.mp h
    obtain ⟨⟨e, last⟩, hexponent, h⟩ := Option.map_eq_some_iff.mp h
    cases h
    rw [if_neg hwhole, takeFraction_local hrest hfraction, Option.bind_some,
      takeExponent_local hrest hexponent]
    rfl

/-- A text without a sign. -/
theorem signed_cons {c : Char} (hc : c ≠ '-') (text : List Char) : Signed (c :: text) false (c :: text) :=
  .inr ⟨rfl, rfl, fun _ heq => hc (List.cons.inj heq).1⟩

/-- A number is read no further than its text. -/
theorem takeNumber_local {text rest after : List Char} {j : Json} (hrest : Ends rest)
    (h : takeNumber text = some (j, after)) : takeNumber (text ++ rest) = some (j, after ++ rest) := by
  cases text with
  | nil => cases h
  | cons c text =>
    by_cases hc : c = '-'
    · subst hc
      have hunsigned : takeUnsigned true text = some (j, after) := h
      exact takeUnsigned_local hrest hunsigned
    · rw [takeNumber_signed (signed_cons hc text)] at h
      rw [List.cons_append, takeNumber_signed (signed_cons hc _)]
      exact takeUnsigned_local hrest h

/-- What a number starts with. -/
theorem head_of_takeNumber {text after : List Char} {j : Json} (h : takeNumber text = some (j, after)) :
    ∃ c rest, text = c :: rest ∧ (c = '-' ∨ c.isDigit) := by
  cases text with
  | nil => cases h
  | cons c text =>
    refine ⟨c, text, rfl, ?_⟩
    by_cases hc : c = '-'
    · exact .inl hc
    · rw [takeNumber_signed (signed_cons hc text)] at h
      cases hdigit : Numeral.digit? c with
      | none =>
        simp only [takeUnsigned, takeDigits, hdigit, true_or, if_true] at h
        cases h
      | some d =>
        refine .inr ?_
        unfold Numeral.digit? at hdigit
        split at hdigit
        · rename_i hbounds
          simp only [Char.isDigit, Bool.and_eq_true, decide_eq_true_eq] at hbounds ⊢
          exact hbounds
        · cases hdigit

end Lineage.Json
