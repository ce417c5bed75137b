/-
  Lineage.Proofs.Text.Case

  A text in upper case stays as it is in upper case, and an ASCII text in lower case
  as it is in lower case.

  No code point that the tables map to is mapped itself.  The codes on either side are
  gathered into the bits of a number, so that this is one computation
  (`lowerMask_and_upperMask`).
-/
import Mathlib.Algebra.Group.Nat.Defs
import Lineage.Text.Case

namespace Lineage.Text

/-! ## Sets of codes -/

/-- The number with the bits of these codes. -/
def mask (codes : List Nat) : Nat := codes.foldr (fun code m => 2 ^ code ||| m) 0

theorem testBit_mask {codes : List Nat} {code : Nat} : (mask codes).testBit code = true ↔ code ∈ codes := by
  induction codes with
  | nil => simp [mask]
  | cons c codes ih =>
    have hstep : mask (c :: codes) = 2 ^ c ||| mask codes := rfl
    rw [hstep, Nat.testBit_or, Bool.or_eq_true, ih, Nat.testBit_two_pow, decide_eq_true_eq, List.mem_cons,
      eq_comm]

/-- Codes whose numbers have no bit in common are apart. -/
theorem not_mem_of_mask {codes others : List Nat} (h : mask codes &&& mask others = 0) {code : Nat}
    (hcode : code ∈ others) : code ∉ codes := by
  intro hmem
  have hbit : (mask codes &&& mask others).testBit code = true := by
    rw [Nat.testBit_and, testBit_mask.mpr hmem, testBit_mask.mpr hcode]
    rfl
  rw [h, Nat.zero_testBit] at hbit
  cases hbit

/-! ## The tables -/

/-- The codes that a run maps. -/
def CaseRun.codes (r : CaseRun) : List Nat :=
  (List.range ((r.last - r.first) / r.stride + 1)).map fun k => r.first + k * r.stride

/-- The codes that are not upper case: the letters of ASCII, and what the tables map. -/
def lowerCodes : List Nat :=
  (List.range 26).map (0x61 + ·) ++ upperSpecial.map Prod.fst ++ upperRuns.flatMap CaseRun.codes

/-- The codes that the tables map to. -/
def upperCodes : List Nat :=
  upperSpecial.flatMap Prod.snd ++
    upperRuns.flatMap fun r => r.codes.map fun (code : Nat) => ((code : Int) + r.shift).toNat

theorem lowerMask_and_upperMask : mask lowerCodes &&& mask upperCodes = 0 := by decide +kernel

theorem upperCodes_valid : ∀ code ∈ upperCodes, code.isValidChar := by decide +kernel

/-- What runs map, and what to. -/
theorem mem_of_map? {code image : Nat} (h : CaseRun.map? upperRuns code = some image) :
    code ∈ lowerCodes ∧ image ∈ upperCodes := by
  obtain ⟨r, hfind, rfl⟩ := Option.map_eq_some_iff.mp h
  have hr := List.mem_of_find?_eq_some hfind
  have hrun := List.find?_some hfind
  simp only [Bool.and_eq_true, decide_eq_true_eq, beq_iff_eq] at hrun
  obtain ⟨⟨hfirst, hlast⟩, hstride⟩ := hrun
  have hcode : code ∈ r.codes := by
    refine List.mem_map.mpr ⟨(code - r.first) / r.stride, List.mem_range.mpr ?_, ?_⟩
    · exact Nat.lt_succ_of_le (Nat.div_le_div_right (Nat.sub_le_sub_right hlast _))
    · rw [Nat.div_mul_cancel (Nat.dvd_of_mod_eq_zero hstride), Nat.add_sub_cancel' hfirst]
  exact ⟨List.mem_append_right _ (List.mem_flatMap.mpr ⟨r, hr, hcode⟩),
    List.mem_append_right _ (List.mem_flatMap.mpr ⟨r, hr, List.mem_map.mpr ⟨code, hcode, rfl⟩⟩)⟩

/-! ## Upper case -/

/-- What neither is a letter of ASCII in lower case nor stands in the tables stays as it is. -/
theorem upperChar_of_not_mem {c : Char} (h : c.toNat ∉ lowerCodes) : upperChar c = [c] := by
  unfold upperChar
  split
  · refine congrArg (fun c => [c]) (dif_neg ?_)
    rintro ⟨hlo, hhi⟩
    have hlo : 0x61 ≤ c.toNat := hlo
    have hhi : c.toNat ≤ 0x7A := hhi
    refine h (List.mem_append_left _ (List.mem_append_left _ ?_))
    exact List.mem_map.mpr ⟨c.toNat - 0x61, List.mem_range.mpr (by omega), by omega⟩
  · have hspecial : upperSpecial.lookup c.toNat = none := by
      refine List.lookup_eq_none_iff.mpr fun p hp => bne_iff_ne.mpr fun heq => h ?_
      exact List.mem_append_left _ (List.mem_append_right _ (List.mem_map.mpr ⟨p, hp, heq.symm⟩))
    have hrun : CaseRun.map? upperRuns c.toNat = none :=
      Option.eq_none_iff_forall_ne_some.mpr fun _ heq => h (mem_of_map? heq).1
    simp only [mapByTables, hspecial, hrun]

/-- What the tables map to stays as it is. -/
theorem upperChar_of_mem {code : Nat} (h : code ∈ upperCodes) :
    upperChar (Char.ofNat code) = [Char.ofNat code] := by
  refine upperChar_of_not_mem ?_
  rw [Char.ofNat, dif_pos (upperCodes_valid code h)]
  exact not_mem_of_mask lowerMask_and_upperMask h

theorem upperChar_ascii : ∀ code < 0x80, upperChar (Char.ofNat code).toUpper = [(Char.ofNat code).toUpper] := by
  decide +kernel

/-- A character in upper case stays as it is. -/
theorem upperChar_upperChar {c d : Char} (h : d ∈ upperChar c) : upperChar d = [d] := by
  have hself (hc : upperChar c = [c]) : upperChar d = [d] := by
    rw [hc] at h
    rw [List.mem_singleton.mp h, hc]
  unfold upperChar at h
  split at h
  · rename_i hascii
    have hupper := upperChar_ascii c.toNat hascii
    rw [Char.ofNat_toNat] at hupper
    rw [List.mem_singleton.mp h, hupper]
  · rename_i hascii
    have htables : upperChar c = mapByTables upperSpecial upperRuns c := if_neg hascii
    unfold mapByTables at h htables
    split at h
    · rename_i codes hlookup
      obtain ⟨before, after, htable, -⟩ := List.lookup_eq_some_iff.mp hlookup
      obtain ⟨code, hcode, rfl⟩ := List.mem_map.mp h
      have hmem : (c.toNat, codes) ∈ upperSpecial := by
        rw [htable]
        exact List.mem_append_right _ List.mem_cons_self
      exact upperChar_of_mem (List.mem_append_left _ (List.mem_flatMap.mpr ⟨_, hmem, hcode⟩))
    · rename_i hspecial
      rw [hspecial] at htables
      split at h
      · rename_i code hrun
        rw [List.mem_singleton.mp h]
        exact upperChar_of_mem (mem_of_map? hrun).2
      · rename_i hrun
        rw [hrun] at htables
        exact hself htables

/-- A text in upper case stays as it is. -/
theorem upper_upper (s : List Char) : upper (upper s) = upper s := by
  have hfixed (t : List Char) (ht : ∀ c ∈ t, upperChar c = [c]) : upper t = t := by
    induction t with
    | nil => rfl
    | cons c t ih =>
      have hrest := ih fun d hd => ht d (List.mem_cons_of_mem _ hd)
      rw [upper, List.flatMap_cons, ht c List.mem_cons_self]
      exact congrArg (c :: ·) hrest
  refine hfixed _ fun d hd => ?_
  obtain ⟨c, -, hc⟩ := List.mem_flatMap.mp hd
  exact upperChar_upperChar hc

/-! ## Lower case in ASCII -/

/-- The lower-case form of ASCII text is made character by character. -/
theorem lowerAfter_ascii {s : List Char} (h : ∀ c ∈ s, c.toNat < 0x80) (before : List Char) :
    lowerAfter before s = s.map Char.toLower := by
  induction s generalizing before with
  | nil => rfl
  | cons c s ih =>
    obtain ⟨hc, hs⟩ := List.forall_mem_cons.mp h
    have hsigma : c ≠ 'Σ' := by
      rintro rfl
      exact absurd hc (by decide)
    rw [lowerAfter, if_neg hsigma, lowerChar, if_pos hc, ih hs]
    rfl

theorem toLower_ascii : ∀ code < 0x80, (Char.ofNat code).toLower.toNat < 0x80 ∧
    (Char.ofNat code).toLower.toLower = (Char.ofNat code).toLower := by
  decide

/-- An ASCII text in lower case stays as it is. -/
theorem lower_lower {s : List Char} (h : ∀ c ∈ s, c.toNat < 0x80) : lower (lower s) = lower s := by
  have hchar (c : Char) (hc : c ∈ s) : c.toLower.toNat < 0x80 ∧ c.toLower.toLower = c.toLower := by
    have := toLower_ascii c.toNat (h c hc)
    rwa [Char.ofNat_toNat] at this
  have hlower : lower s = s.map Char.toLower := lowerAfter_ascii h []
  have hascii : ∀ c ∈ s.map Char.toLower, c.toNat < 0x80 := by
    intro c hc
    obtain ⟨d, hd, rfl⟩ := List.mem_map.mp hc
    exact (hchar d hd).1
  rw [hlower, lower, lowerAfter_ascii hascii, List.map_map]
  refine List.map_congr_left fun c hc => ?_
  exact (hchar c hc).2

end Lineage.Text
