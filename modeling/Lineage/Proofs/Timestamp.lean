/-
  Lineage.Proofs.Timestamp

  A moment is read back from its RFC 3339 form.

  Days and dates correspond (`toDays_ofDays`, `isValid_ofDays`): within an era of 400 years
  the year of a day is the one between whose first days it lies.  Padded numbers are read
  up to what follows them, and so in the end is the whole text (`read_write`).  Whatever is
  read of a text is a moment that there is (`valid_of_read`).
-/
import Mathlib.Algebra.Group.Nat.Defs
import Lineage.Proofs.Json.Numbers
import Lineage.Timestamp

namespace Lineage

namespace CivilDate

/-! ## Days of an era -/

/-- The year of an era in which a day of the era lies. -/
def yearOfDay (day : Int) : Int := (day - day / 1460 + day / 36524 - day / 146096) / 365

/-- The first day of a year of an era. -/
def firstDay (year : Int) : Int := 365 * year + year / 4 - year / 100 + year / 400

theorem yearOfDay_le_succ (day : Nat) : yearOfDay day ≤ yearOfDay (day + 1) := by
  unfold yearOfDay
  omega

theorem yearOfDay_mono {d e : Nat} (h : d ≤ e) : yearOfDay d ≤ yearOfDay e := by
  induction h with
  | refl => exact Int.le_refl _
  | step _ ih => exact Int.le_trans ih (yearOfDay_le_succ _)

/-- The first and the last day of a year lie in that year. -/
theorem yearOfDay_ends : ∀ y : Fin 400, yearOfDay (firstDay y) = y ∧
    yearOfDay (firstDay (y + 1) - 1) = y := by
  decide +kernel

/-- A year that starts in March is as long as the calendar year that its February is in. -/
theorem firstDay_succ : ∀ y : Fin 400, firstDay (y + 1) =
    firstDay y + 365 + if isLeapYear (y + 1) then 1 else 0 := by
  decide +kernel

/-- A day lies in the year between whose first day and that of the next one it is. -/
theorem yearOfDay_eq {day : Int} {year : Nat} (hyear : year < 400) (hlo : firstDay year ≤ day)
    (hhi : day < firstDay (year + 1)) : yearOfDay day = year := by
  have hends := yearOfDay_ends ⟨year, hyear⟩
  simp only at hends
  have hfirst : 0 ≤ firstDay year := by unfold firstDay; omega
  have hlower := yearOfDay_mono (d := (firstDay year).toNat) (e := day.toNat) (by omega)
  have hupper := yearOfDay_mono (d := day.toNat) (e := (firstDay (year + 1) - 1).toNat) (by omega)
  rw [Int.toNat_of_nonneg hfirst, Int.toNat_of_nonneg (by omega), hends.1] at hlower
  rw [Int.toNat_of_nonneg (by omega), Int.toNat_of_nonneg (by omega), hends.2] at hupper
  omega

/-- Induction on the number of years: a day before the first day of a year lies in an earlier
one. -/
theorem exists_year {day : Int} (h : 0 ≤ day) (years : Nat) (hday : day < firstDay years) :
    ∃ year < years, firstDay year ≤ day ∧ day < firstDay (year + 1) := by
  induction years with
  | zero => unfold firstDay at hday; omega
  | succ years ih =>
    by_cases hlt : day < firstDay years
    · obtain ⟨year, hyear, hbounds⟩ := ih hlt
      exact ⟨year, by omega, hbounds⟩
    · exact ⟨years, by omega, by omega, by simpa using hday⟩

/-- A day of an era by its year and its place in that year, which starts in March. -/
theorem era_split {day : Int} (hlo : 0 ≤ day) (hhi : day ≤ 146096) :
    0 ≤ yearOfDay day ∧ yearOfDay day < 400 ∧ firstDay (yearOfDay day) ≤ day ∧
      day < firstDay (yearOfDay day + 1) := by
  obtain ⟨year, hyear, hfirst, hnext⟩ := exists_year hlo 400 (by unfold firstDay; omega)
  rw [yearOfDay_eq hyear hfirst hnext]
  exact ⟨by omega, by omega, hfirst, hnext⟩

/-! ## Dates -/

/-- The parts from which the date of a day is put together: its era, the year of the era, the
day of the year and the month, all counted from March. -/
structure Parts where
  era : Int
  year : Int
  day : Int
  month : Int

def parts (days : Int) : Parts :=
  let dayOfEra := (days + 719468) % 146097
  let dayOfYear := dayOfEra - (365 * yearOfDay dayOfEra + yearOfDay dayOfEra / 4 -
    yearOfDay dayOfEra / 100)
  ⟨(days + 719468) / 146097, yearOfDay dayOfEra, dayOfYear, (5 * dayOfYear + 2) / 153⟩

theorem ofDays_eq (days : Int) : ofDays days =
    (let p := parts days
     let month := if p.month < 10 then p.month + 3 else p.month - 9
     let year := p.year + p.era * 400
     ⟨if month ≤ 2 then year + 1 else year, month.toNat,
       (p.day - (153 * p.month + 2) / 5 + 1).toNat⟩) := rfl

/-- What the parts of a day are bounded by; a year has its last day only before a leap day's
month has passed. -/
theorem parts_spec (days : Int) : 0 ≤ (parts days).year ∧ (parts days).year < 400 ∧
    0 ≤ (parts days).day ∧ (parts days).day ≤ 365 ∧
    ((parts days).day = 365 → isLeapYear ((parts days).year + 1) = true) ∧
    (parts days).month = (5 * (parts days).day + 2) / 153 ∧
    days = (parts days).era * 146097 + (365 * (parts days).year + (parts days).year / 4 -
      (parts days).year / 100) + (parts days).day - 719468 := by
  have hsplit := @era_split ((days + 719468) % 146097) (by omega) (by omega)
  simp only [parts]
  generalize yearOfDay ((days + 719468) % 146097) = year at hsplit
  obtain ⟨hlo, hhi, hfirst, hnext⟩ := hsplit
  have hlength := firstDay_succ ⟨year.toNat, by omega⟩
  simp only [Int.toNat_of_nonneg hlo] at hlength
  have hstart : firstDay year = 365 * year + year / 4 - year / 100 := by unfold firstDay; omega
  rw [hlength] at hnext
  rw [hstart] at hfirst hnext
  refine ⟨hlo, hhi, by omega, ?_, fun hlast => ?_, trivial, by omega⟩
  · split at hnext <;> omega
  · split at hnext
    · assumption
    · omega

theorem isLeapYear_add_era (year era : Int) : isLeapYear (year + era * 400) = isLeapYear year := by
  have h₁ : (year + era * 400) % 4 = year % 4 := by omega
  have h₂ : (year + era * 400) % 100 = year % 100 := by omega
  have h₃ : (year + era * 400) % 400 = year % 400 := by omega
  rw [isLeapYear, isLeapYear, h₁, h₂, h₃]

/-- The day of a date is the day whose date it is. -/
theorem toDays_ofDays (days : Int) : (ofDays days).toDays = days := by
  obtain ⟨hyear, hyear', hday, hday', -, hmonth, hdays⟩ := parts_spec days
  rw [ofDays_eq]
  generalize parts days = p at *
  obtain ⟨era, year, day, month⟩ := p
  simp only at *
  have hmonth_le : 0 ≤ month ∧ month ≤ 11 := by omega
  -- The month counted from March is found again.
  by_cases hlate : month < 10
  · have hnat : ((month + 3).toNat + 9) % 12 = month.toNat := by omega
    have hyear_eq : ¬ month + 3 ≤ 2 := by omega
    have hnat_le : ¬ (month + 3).toNat ≤ 2 := by omega
    simp only [toDays, if_pos hlate, if_neg hyear_eq, if_neg hnat_le, hnat]
    omega
  · have hnat : ((month - 9).toNat + 9) % 12 = month.toNat := by omega
    have hyear_eq : month - 9 ≤ 2 := by omega
    have hnat_le : (month - 9).toNat ≤ 2 := by omega
    simp only [toDays, if_neg hlate, if_pos hyear_eq, if_pos hnat_le, hnat]
    omega

/-- The date of a day exists, if its year is one of those that are kept. -/
theorem isValid_ofDays {days : Int} (hlo : -262143 ≤ (ofDays days).year)
    (hhi : (ofDays days).year ≤ 262142) : (ofDays days).isValid = true := by
  obtain ⟨hyear, hyear', hday, hday', hleap, hmonth, -⟩ := parts_spec days
  have hbounds : 1 ≤ (ofDays days).month ∧ (ofDays days).month ≤ 12 ∧ 1 ≤ (ofDays days).day ∧
      (ofDays days).day ≤ daysInMonth (ofDays days).year (ofDays days).month := by
    rw [ofDays_eq]
    generalize parts days = p at *
    obtain ⟨era, year, day, month⟩ := p
    simp only at *
    have hmonth_le : 0 ≤ month ∧ month ≤ 11 := by omega
    by_cases hlate : month < 10
    · have hyear_eq : ¬ month + 3 ≤ 2 := by omega
      simp only [if_pos hlate, if_neg hyear_eq]
      refine ⟨by omega, by omega, by omega, ?_⟩
      have hfeb : ¬ (month + 3).toNat = 2 := by omega
      simp only [daysInMonth, if_neg hfeb, Bool.or_eq_true, decide_eq_true_eq]
      split <;> omega
    · have hyear_eq : month - 9 ≤ 2 := by omega
      simp only [if_neg hlate, if_pos hyear_eq]
      refine ⟨by omega, by omega, by omega, ?_⟩
      have hera : year + era * 400 + 1 = year + 1 + era * 400 := by omega
      simp only [daysInMonth, hera, isLeapYear_add_era, Bool.or_eq_true, decide_eq_true_eq]
      -- Only the month that may hold the leap day depends on the year.
      by_cases hfeb : (month - 9).toNat = 2
      · rw [if_pos hfeb]
        by_cases hlast : day = 365
        · rw [if_pos (hleap hlast)]
          omega
        · split <;> omega
      · rw [if_neg hfeb]
        split <;> omega
  simp only [isValid, Bool.and_eq_true, decide_eq_true_eq]
  exact ⟨⟨⟨⟨⟨hlo, hhi⟩, hbounds.1⟩, hbounds.2.1⟩, hbounds.2.2.1⟩, hbounds.2.2.2⟩

end CivilDate

namespace Timestamp

open Json (digit?_of_isDigit)

/-! ## Padded numbers -/

theorem isBlank_of_isDigit {c : Char} (h : c.isDigit) : Text.isBlank c = false := by
  simp only [Char.isDigit, Bool.and_eq_true, decide_eq_true_eq, UInt32.le_iff_toNat_le] at h
  have hlo : 48 ≤ c.toNat := h.1
  have hhi : c.toNat ≤ 57 := h.2
  have hranges : ∀ r ∈ Text.blankRanges, r.2 < 48 ∨ 57 < r.1 := by decide
  refine List.any_eq_false.mpr fun r hr => ?_
  have hr := hranges r hr
  simp only [Bool.and_eq_true, decide_eq_true_eq]
  omega

theorem trimStart_cons {c : Char} (h : Text.isBlank c = false) (rest : List Char) :
    Text.trimStart (c :: rest) = c :: rest :=
  Text.trimStart_eq_self fun d hd => by cases hd; exact h

theorem isDigit_of_mem_padded {width n : Nat} {c : Char} (h : c ∈ padded width n) : c.isDigit := by
  rcases List.mem_append.mp h with h | h
  · obtain ⟨-, rfl⟩ := List.mem_replicate.mp h
    rfl
  · exact Nat.isDigit_of_mem_toDigits (by decide) (by decide) h

theorem length_padded {width n : Nat} (hwidth : 0 < width) (h : n < 10 ^ width) :
    (padded width n).length = width := by
  have hlen := (Nat.length_toDigits_le_iff (by decide) hwidth).mpr h
  simp only [padded, List.length_append, List.length_replicate]
  omega

theorem padded_ne_nil (width n : Nat) : padded width n ≠ [] :=
  List.append_ne_nil_of_right_ne_nil _ Nat.toDigits_ne_nil

theorem ofDigitChars_padded (width n : Nat) : Nat.ofDigitChars 10 (padded width n) 0 = n := by
  have hzeros (count : Nat) : Nat.ofDigitChars 10 (List.replicate count '0') 0 = 0 := by
    induction count with
    | zero => rfl
    | succ count ih => rw [List.replicate_succ, Nat.ofDigitChars_cons]; exact ih
  rw [padded, Nat.ofDigitChars_append, hzeros, Nat.ofDigitChars_ten_toDigits]

/-! ## Reading the parts -/

/-- Digits are taken up to what follows them, or as many as there may be. -/
theorem takeNat_digits {digits rest : List Char} {limit : Nat} (hdigits : ∀ c ∈ digits, c.isDigit)
    (hne : digits ≠ []) (hlen : digits.length ≤ limit)
    (hrest : digits.length = limit ∨ ∀ c ∈ rest.head?, Numeral.digit? c = none) :
    takeNat limit (digits ++ rest) = some (Nat.ofDigitChars 10 digits 0, digits.length, rest) := by
  have htaken : ((digits ++ rest).take limit).takeWhile
      (fun c => (Numeral.digit? c).isSome) = digits := by
    rw [List.take_append, List.take_of_length_le hlen, List.takeWhile_append_of_pos fun c hc => by
      rw [digit?_of_isDigit (hdigits c hc)]; rfl]
    suffices (rest.take (limit - digits.length)).takeWhile
        (fun c => (Numeral.digit? c).isSome) = [] by rw [this, List.append_nil]
    rcases hrest with hfull | hstop
    · rw [hfull, Nat.sub_self, List.take_zero, List.takeWhile_nil]
    · cases rest with
      | nil => rw [List.take_nil, List.takeWhile_nil]
      | cons c rest =>
        cases limit - digits.length with
        | zero => rw [List.take_zero, List.takeWhile_nil]
        | succ more =>
          rw [List.take_succ_cons, List.takeWhile_cons_of_neg]
          rw [hstop c rfl]
          decide
  have hvalue (acc : Nat) : digits.foldl (fun acc c => acc * 10 + (Numeral.digit? c).getD 0) acc =
      Nat.ofDigitChars 10 digits acc := by
    clear htaken hne hlen hrest
    induction digits generalizing acc with
    | nil => rw [Nat.ofDigitChars_nil]; rfl
    | cons c digits ih =>
      rw [Nat.ofDigitChars_cons, List.foldl_cons, ih fun d hd => hdigits d (List.mem_cons_of_mem _ hd),
        digit?_of_isDigit (hdigits c List.mem_cons_self), Nat.mul_comm acc 10]
      rfl
  unfold takeNat
  rw [htaken]
  simp only [if_neg hne, hvalue, List.drop_left]

theorem takeNat_padded {width n limit : Nat} {rest : List Char}
    (hlen : (padded width n).length ≤ limit)
    (hrest : (padded width n).length = limit ∨ ∀ c ∈ rest.head?, Numeral.digit? c = none) :
    takeNat limit (padded width n ++ rest) = some (n, (padded width n).length, rest) := by
  rw [takeNat_digits (fun c hc => isDigit_of_mem_padded hc) (padded_ne_nil _ _) hlen hrest,
    ofDigitChars_padded]

theorem trimStart_padded (width n : Nat) (rest : List Char) :
    Text.trimStart (padded width n ++ rest) = padded width n ++ rest := by
  obtain ⟨c, cs, hcs⟩ := List.exists_cons_of_ne_nil (padded_ne_nil width n)
  have hmem : c ∈ padded width n := hcs ▸ List.mem_cons_self
  have hc : c.isDigit := isDigit_of_mem_padded hmem
  rw [hcs]
  exact trimStart_cons (isBlank_of_isDigit hc) _

theorem takePair_padded {n : Nat} (h : n < 100) (rest : List Char) :
    takePair (padded 2 n ++ rest) = some (n, rest) := by
  have hlen : (padded 2 n).length = 2 := length_padded (by decide) h
  rw [takePair, trimStart_padded, takeNat_padded (Nat.le_of_eq hlen) (.inl hlen)]
  rfl

theorem takeMark_cons {mark : Char} (h : Text.isBlank mark = false) (rest : List Char) :
    takeMark mark (mark :: rest) = some rest := by
  simp only [takeMark, trimStart_cons h, if_true]

/-- A year is read back, up to the dash after it. -/
theorem takeYear_writeYear (year : Int) (rest : List Char) :
    takeYear (writeYear year ++ '-' :: rest) = some (year, '-' :: rest) := by
  have hdash : ∀ c ∈ ('-' :: rest).head?, Numeral.digit? c = none := by
    intro c hc
    cases hc
    rfl
  have hsigned : takeNat (padded 4 year.natAbs ++ '-' :: rest).length
      (padded 4 year.natAbs ++ '-' :: rest) =
        some (year.natAbs, (padded 4 year.natAbs).length, '-' :: rest) :=
    takeNat_padded (by rw [List.length_append]; omega) (.inr hdash)
  unfold writeYear
  split
  · -- Four digits, the first of which is no sign.
    rename_i hyear
    have hlen : (padded 4 year.toNat).length = 4 := length_padded (by decide) (by omega)
    have hplain : takeNat 4 (padded 4 year.toNat ++ '-' :: rest) = _ :=
      takeNat_padded (Nat.le_of_eq hlen) (.inl hlen)
    obtain ⟨c, cs, hcs⟩ := List.exists_cons_of_ne_nil (padded_ne_nil 4 year.toNat)
    have hmem : c ∈ padded 4 year.toNat := hcs ▸ List.mem_cons_self
    have hc : c.isDigit := isDigit_of_mem_padded hmem
    rw [takeYear, trimStart_padded]
    rw [hcs, List.cons_append] at hplain ⊢
    split
    · rename_i heq
      cases heq
      exact absurd hc (by decide)
    · rename_i heq
      cases heq
      exact absurd hc (by decide)
    · rw [hplain, Option.map_some]
      simp only [Option.some.injEq, Prod.mk.injEq, and_true]
      exact Int.toNat_of_nonneg hyear.1
  · rw [takeYear, List.cons_append]
    by_cases hneg : year < 0
    · rw [if_pos hneg, trimStart_cons rfl]
      simp only [hsigned, Option.map_some, Option.some.injEq, Prod.mk.injEq, and_true]
      omega
    · rw [if_neg hneg, trimStart_cons rfl]
      simp only [hsigned, Option.map_some, Option.some.injEq, Prod.mk.injEq, and_true]
      omega

/-- The fraction of a second is read back, up to the mark of the offset. -/
theorem takeFraction_writeFraction {nanos : Nat} (h : nanos < 1000000000) :
    takeFraction (writeFraction nanos ++ ['Z']) = some (nanos, ['Z']) := by
  have hpadded {width n : Nat} (hwidth : 0 < width) (hwidth' : width ≤ 9) (hn : n < 10 ^ width) :
      takeFraction ('.' :: padded width n ++ ['Z']) = some (n * 10 ^ (9 - width), ['Z']) := by
    have hlen : (padded width n).length = width := length_padded hwidth hn
    have htaken : takeNat 9 (padded width n ++ ['Z']) = _ :=
      takeNat_padded (by omega) (.inr fun c hc => by cases hc; rfl)
    rw [List.cons_append, takeFraction, htaken, hlen]
    rfl
  unfold writeFraction
  split
  · subst nanos
    rfl
  · split
    · rw [hpadded (by decide) (by decide) (by omega)]
      simp only [Option.some.injEq, Prod.mk.injEq, and_true]
      omega
    · split
      · rw [hpadded (by decide) (by decide) (by omega)]
        simp only [Option.some.injEq, Prod.mk.injEq, and_true]
        omega
      · rw [hpadded (by decide) (by decide) (by omega)]
        simp only [Option.some.injEq, Prod.mk.injEq, and_true]
        omega

/-! ## Moments -/

/-- The moments that there are: their year is one of those that are kept, and only the last second
of a minute may be a leap second. -/
structure Valid (t : Timestamp) : Prop where
  year_ge : -262143 ≤ (CivilDate.ofDays (t.seconds / 86400)).year
  year_le : (CivilDate.ofDays (t.seconds / 86400)).year ≤ 262142
  nanos_lt : t.nanos < 2000000000
  leap : 1000000000 ≤ t.nanos → t.seconds % 60 = 59

theorem epoch_valid : epoch.Valid := ⟨by decide, by decide, by decide, by decide⟩

theorem read_write {t : Timestamp} (h : t.Valid) : read t.write = some t := by
  obtain ⟨seconds, nanos⟩ := t
  obtain ⟨hlo, hhi, hnanos, hleap⟩ := h
  simp only at hlo hhi hnanos hleap
  have hvalid := CivilDate.isValid_ofDays hlo hhi
  have hdays := CivilDate.toDays_ofDays (seconds / 86400)
  generalize hdate : CivilDate.ofDays (seconds / 86400) = date at *
  have hmonth : date.month < 100 ∧ date.day < 100 := by
    simp only [CivilDate.isValid, Bool.and_eq_true, decide_eq_true_eq] at hvalid
    have hlast : CivilDate.daysInMonth date.year date.month ≤ 31 := by
      unfold CivilDate.daysInMonth
      repeat' split
      all_goals decide
    omega
  have hdash (tail : List Char) : takeMark '-' ('-' :: tail) = some tail := takeMark_cons rfl tail
  have hcolon (tail : List Char) : takeMark ':' (':' :: tail) = some tail := takeMark_cons rfl tail
  have hsecond : (seconds % 86400).toNat % 60 + nanos / 1000000000 < 100 := by omega
  have hoffset : takeOffset ['Z'] = some (0, []) := by decide +kernel
  have hseparator (tail : List Char) : takeSeparator ('T' :: tail) = some tail := rfl
  -- One part after the other, each up to the mark after it.
  unfold read
  simp only [write, String.toList_ofList, hdate, List.append_assoc, List.cons_append]
  refine Option.bind_eq_some_iff.mpr ⟨_, takeYear_writeYear _ _, ?_⟩
  refine Option.bind_eq_some_iff.mpr ⟨_, hdash _, ?_⟩
  refine Option.bind_eq_some_iff.mpr ⟨_, takePair_padded hmonth.1 _, ?_⟩
  refine Option.bind_eq_some_iff.mpr ⟨_, hdash _, ?_⟩
  refine Option.bind_eq_some_iff.mpr ⟨_, takePair_padded hmonth.2 _, ?_⟩
  refine Option.bind_eq_some_iff.mpr ⟨_, hseparator _, ?_⟩
  refine Option.bind_eq_some_iff.mpr ⟨_, takePair_padded (by omega) _, ?_⟩
  refine Option.bind_eq_some_iff.mpr ⟨_, hcolon _, ?_⟩
  refine Option.bind_eq_some_iff.mpr ⟨_, takePair_padded (by omega) _, ?_⟩
  refine Option.bind_eq_some_iff.mpr ⟨_, hcolon _, ?_⟩
  refine Option.bind_eq_some_iff.mpr ⟨_, takePair_padded hsecond _, ?_⟩
  refine Option.bind_eq_some_iff.mpr
    ⟨_, takeFraction_writeFraction (Nat.mod_lt nanos (by decide)), ?_⟩
  refine Option.bind_eq_some_iff.mpr ⟨_, hoffset, ?_⟩
  -- A leap second is read as the second before it.
  have hleapSecond : ((seconds % 86400).toNat % 60 + nanos / 1000000000) / 60 = nanos / 1000000000 := by
    omega
  have htime : ¬ ((!date.isValid) = true ∨ 24 ≤ (seconds % 86400).toNat / 3600 ∨
      60 ≤ (seconds % 86400).toNat / 60 % 60 ∨
      60 < (seconds % 86400).toNat % 60 + nanos / 1000000000) := by
    rw [hvalid]
    simp only [Bool.not_true, Bool.false_eq_true, false_or]
    omega
  have hseconds : date.toDays * 86400 + (((seconds % 86400).toNat / 3600 : Nat) : Int) * 3600 +
      (((seconds % 86400).toNat / 60 % 60 : Nat) : Int) * 60 +
      (((seconds % 86400).toNat % 60 + nanos / 1000000000 - nanos / 1000000000 : Nat) : Int) - 0 =
        seconds := by omega
  have hnanos : nanos % 1000000000 + nanos / 1000000000 * 1000000000 = nanos := by omega
  rw [if_pos (show Text.trimStart [] = [] from rfl)]
  dsimp only
  unfold ofParts
  rw [if_neg htime]
  simp only [hleapSecond, hseconds, hdate, hvalid, hnanos, if_true]

/-! ## What is read -/

theorem digit?_lt {c : Char} {d : Nat} (h : Numeral.digit? c = some d) : d < 10 := by
  unfold Numeral.digit? at h
  split at h
  · rename_i hc
    cases h
    simp only [Bool.and_eq_true, decide_eq_true_eq, Char.le_def, UInt32.le_iff_toNat_le] at hc
    have hnine : '9'.val.toNat = '0'.toNat + 9 := rfl
    show c.val.toNat - '0'.toNat < 10
    omega
  · cases h

/-- A number has no more digits than are counted. -/
theorem takeNat_lt {limit n count : Nat} {text rest : List Char}
    (h : takeNat limit text = some (n, count, rest)) : n < 10 ^ count ∧ count ≤ limit := by
  have hvalue (digits : List Char) : ∀ start width : Nat, start < 10 ^ width →
      digits.foldl (fun acc c => acc * 10 + (Numeral.digit? c).getD 0) start <
        10 ^ (width + digits.length) := by
    induction digits with
    | nil => exact fun _ _ hstart => hstart
    | cons c digits ih =>
      intro start width hstart
      have hdigit : (Numeral.digit? c).getD 0 < 10 := by
        cases hc : Numeral.digit? c with
        | none => decide
        | some d => exact digit?_lt hc
      have hnext := ih (start * 10 + (Numeral.digit? c).getD 0) (width + 1) (by
        rw [Nat.pow_succ]
        omega)
      rwa [Nat.add_assoc, Nat.add_comm 1] at hnext
  unfold takeNat at h
  dsimp only at h
  split at h
  · cases h
  · cases h
    refine ⟨?_, ?_⟩
    · have hlt := hvalue ((text.take limit).takeWhile fun c => (Numeral.digit? c).isSome) 0 0 (by decide)
      rwa [Nat.zero_add] at hlt
    · exact Nat.le_trans (List.takeWhile_prefix _).length_le (List.length_take_le _ _)

theorem takeFraction_lt {text rest : List Char} {nanos : Nat}
    (h : takeFraction text = some (nanos, rest)) : nanos < 1000000000 := by
  unfold takeFraction at h
  split at h
  · obtain ⟨⟨n, count, after⟩, htaken, heq⟩ := Option.map_eq_some_iff.mp h
    cases heq
    obtain ⟨hlt, hcount⟩ := takeNat_lt htaken
    calc n * 10 ^ (9 - count) < 10 ^ count * 10 ^ (9 - count) :=
          Nat.mul_lt_mul_of_pos_right hlt (Nat.pow_pos (by decide))
      _ = 1000000000 := by rw [← Nat.pow_add, Nat.add_sub_cancel' hcount]
  · cases h
    decide

/-- Offsets are whole minutes. -/
theorem takeOffset_minutes {text rest : List Char} {offset : Int}
    (h : takeOffset text = some (offset, rest)) : offset % 60 = 0 := by
  unfold takeOffset at h
  split at h
  · cases h
  · split at h
    · cases h
      rfl
    · split at h
      · cases h
        rfl
      · split at h
        · obtain ⟨⟨hours, after⟩, -, h⟩ := Option.bind_eq_some_iff.mp h
          obtain ⟨⟨minutes, after'⟩, -, h⟩ := Option.bind_eq_some_iff.mp h
          dsimp only at h
          split at h
          · cases h
          · cases h
            split <;> omega
        · cases h

theorem valid_of_parts {date : CivilDate} {hour minute second nanos : Nat} {offset : Int}
    (hnanos : nanos < 1000000000) (hoffset : offset % 60 = 0) {t : Timestamp}
    (h : ofParts date hour minute second nanos offset = some t) : t.Valid := by
  unfold ofParts at h
  split at h
  · cases h
  · rename_i htime
    dsimp only at h
    split at h
    · rename_i hvalid
      cases h
      simp only [CivilDate.isValid, Bool.and_eq_true, decide_eq_true_eq] at hvalid
      have hsecond : second ≤ 60 := by omega
      refine ⟨hvalid.1.1.1.1.1, hvalid.1.1.1.1.2, ?_, fun hleap => ?_⟩
      · show nanos + second / 60 * 1000000000 < 2000000000
        omega
      · have hlast : second = 60 := by
          have hleap : 1000000000 ≤ nanos + second / 60 * 1000000000 := hleap
          omega
        subst hlast
        show (date.toDays * 86400 + (hour : Int) * 3600 + (minute : Int) * 60 + ((60 - 60 / 60 : Nat) : Int) -
          offset) % 60 = 59
        omega
    · cases h

/-- What is read is a moment. -/
theorem valid_of_read {text : String} {t : Timestamp} (h : read text = some t) : t.Valid := by
  unfold read at h
  obtain ⟨year, -, h⟩ := Option.bind_eq_some_iff.mp h
  obtain ⟨_, -, h⟩ := Option.bind_eq_some_iff.mp h
  obtain ⟨month, -, h⟩ := Option.bind_eq_some_iff.mp h
  obtain ⟨_, -, h⟩ := Option.bind_eq_some_iff.mp h
  obtain ⟨day, -, h⟩ := Option.bind_eq_some_iff.mp h
  obtain ⟨_, -, h⟩ := Option.bind_eq_some_iff.mp h
  obtain ⟨hour, -, h⟩ := Option.bind_eq_some_iff.mp h
  obtain ⟨_, -, h⟩ := Option.bind_eq_some_iff.mp h
  obtain ⟨minute, -, h⟩ := Option.bind_eq_some_iff.mp h
  obtain ⟨_, -, h⟩ := Option.bind_eq_some_iff.mp h
  obtain ⟨second, -, h⟩ := Option.bind_eq_some_iff.mp h
  obtain ⟨nanos, hfraction, h⟩ := Option.bind_eq_some_iff.mp h
  obtain ⟨offset, hoffset, h⟩ := Option.bind_eq_some_iff.mp h
  dsimp only at h
  split at h
  · exact valid_of_parts (takeFraction_lt hfraction) (takeOffset_minutes hoffset) h
  · cases h

end Timestamp

end Lineage
