/-
  Lineage.Proofs.Script.Tokens

  How the grammar of scripts takes single words.
-/
import Lineage.Proofs.Grammar.Outcomes
import Lineage.Script.Grammar
import Lineage.Text.Quoted

namespace Lineage.Script

open Grammar

/-! ## Fuel -/

/-- How deep the rules of the grammar go before something is consumed. -/
def measure : Measure Rule where
  empty
    | .endOfInput | .program | .statements => true
    | _ => false
  depth
    | .program => 80
    | .statements => 75
    | .statement => 70
    | .exceptCodes => 60
    | .exprlist => 57
    | .exprStatement => 55
    | .argument => 54
    | .expr => 50
    | .atom => 38
    | .ident | .kwIf | .kwFor | .kwWhile | .kwTry | .kwBreak | .kwContinue | .kwReturn | .kwLet => 23
    | _ => 27
  blanks := 8
  bound := 200

theorem grammar_orderly : grammar.Orderly measure where
  empty r := by cases r <;> decide
  depth r := by cases r <;> decide
  orderly r := by cases r <;> decide
  blank := by decide
  blanks := by decide

theorem depth_le (r : Rule) : measure.depth r ≤ 80 := by
  cases r <;> decide

/-- The matcher is given enough fuel for every text: with more it comes to the same. -/
theorem parse_steady (r : Rule) (text : List Char) {more : Nat} (h : fuelFor text ≤ more) :
    grammar.run more {} (.rule r) (.start text) {} = grammar.parse r text := by
  have hdepth := depth_le r
  refine run_steady grammar_orderly rfl ?_ h
  simp only [enough, Pattern.depth, fuelFor, Cursor.start, measure] at hdepth ⊢
  omega

theorem parse_of_gives {r : Rule} {text : List Char} {result : Option (Match Rule)}
    (h : Gives grammar {} (.rule r) (.start text) result) : (grammar.parse r text).2 = result := by
  obtain ⟨n, hn⟩ := Filter.eventually_atTop.mp h
  rw [← parse_steady r text (Nat.le_max_left _ n)]
  exact hn _ (Nat.le_max_right _ _) _

/-! ## What ends a value -/

/-- The characters that may stand behind a value. -/
def stops : List Char := [',', ']', '\x7d', ';']

/-- A text that starts with such a character. -/
def Stops (text : List Char) : Prop := ∃ ch ∈ stops, text.head? = some ch

variable {s : Setting} {c : Cursor} {p : Pattern Rule} {front tail : List Char}

theorem Stops.still (h : Stops c.rest) : Still grammar c := by
  obtain ⟨ch, hch, hhead⟩ := h
  have hblank : refusesEach grammar false stops 8 Rules.blank = true := by decide
  exact still_of_refuses hhead 8 (refuses_of_each hblank hch)

theorem Stops.fails (h : Stops c.rest) (n : Nat)
    (hp : refusesEach grammar true stops n p = true) : Fails grammar s p c := by
  have hstill := h.still
  obtain ⟨ch, hch, hhead⟩ := h
  exact fails_of_refuses hstill hhead n (refuses_of_each hp hch)

/-- What is refused at a character that is no blank fails there. -/
theorem fails_at {ch : Char} (h : c.rest = ch :: tail) (n : Nat)
    (hp : (refuses grammar false (some ch) 8 Rules.blank &&
      refuses grammar true (some ch) n p) = true) :
    Fails grammar s p c := by
  rw [Bool.and_eq_true] at hp
  have hhead : c.rest.head? = some ch := by rw [h]; rfl
  exact fails_of_refuses (still_of_refuses hhead 8 hp.1) hhead n hp.2

theorem all_fail_at {l : List (Pattern Rule)} {ch : Char} (h : c.rest = ch :: tail) (n : Nat)
    (hl : (refuses grammar false (some ch) 8 Rules.blank &&
      l.all (refuses grammar true (some ch) n)) = true) :
    ∀ p ∈ l, Fails grammar s p c := by
  rw [Bool.and_eq_true, List.all_eq_true] at hl
  intro p hp
  exact fails_at h n (by rw [hl.1, hl.2 p hp]; rfl)

theorem Stops.not_accepted {text : List Char} (h : Stops text) {accepts : Char → Bool}
    (hstops : stops.any accepts = false) :
    ∀ ch, text.head? = some ch → accepts ch = false := by
  obtain ⟨ch, hch, hhead⟩ := h
  intro ch' hch'
  rw [hhead] at hch'
  cases hch'
  exact Bool.eq_false_iff.mpr (List.any_eq_false.mp hstops ch hch)

/-- What may stand behind a number or a word: nothing that would go on with it. -/
def Delimited (text : List Char) : Prop :=
  ∀ ch, text.head? = some ch → isIdentChar ch = false ∧ ch ≠ '.'

theorem Stops.delimited {text : List Char} (h : Stops text) : Delimited text := by
  intro ch hch
  refine ⟨h.not_accepted (by decide) ch hch, ?_⟩
  have hdot : '.' ∉ stops := by decide
  obtain ⟨ch', hch', hhead⟩ := h
  rw [hhead] at hch
  cases hch
  rintro rfl
  exact hdot hch'

theorem Delimited.no_ident {text : List Char} (h : Delimited text) :
    ∀ ch, text.head? = some ch → isIdentChar ch = false :=
  fun ch hch => (h ch hch).1

/-! ## Inside of words -/

/-- The setting inside a sealed rule. -/
abbrev tightly : Setting := { spacing := .sealed }

theorem seq_tight {q : Pattern Rule} {c₁ c₂ : Cursor} (hs : s.spacing ≠ .loose)
    (h : Takes grammar s p c c₁ []) (h' : Takes grammar s q c₁ c₂ []) :
    Takes grammar s (.seq p q) c c₂ [] :=
  seq_takes h (skips_of_not_loose hs) h'

theorem seq_tightly {q : Pattern Rule} {c₁ c₂ : Cursor} (h : Takes grammar tightly p c c₁ [])
    (h' : Takes grammar tightly q c₁ c₂ []) : Takes grammar tightly (.seq p q) c c₂ [] :=
  seq_tight (by decide) h h'

theorem wordEnd_takes (h : ∀ ch, c.rest.head? = some ch → isIdentChar ch = false) :
    Takes grammar s Rules.wordEnd c c [] :=
  notAhead_takes (char_fails h)

/-! ## Numbers -/

theorem eq_of_toLower_e {c : Char} (h : c.toLower = 'e') : c = 'e' ∨ c = 'E' := by
  unfold Char.toLower at h
  split at h
  · right
    have hval : c.val + 32 = 101 := congrArg Char.val h
    apply Char.ext
    rw [← UInt32.add_sub_cancel c.val 32, hval]
    rfl
  · exact .inl h

theorem digits_take (hrest : c.rest = front ++ tail) (hne : front ≠ [])
    (hfront : ∀ ch ∈ front, '0' ≤ ch ∧ ch ≤ '9') (htail : Delimited tail) :
    Takes grammar tightly Rules.digits c (c.skip front.length) [] :=
  plus_chars (by decide) hrest hne (fun ch hch => by simpa [isDigit] using hfront ch hch)
    fun ch hch => (Bool.or_eq_false_iff.mp (htail.no_ident ch hch)).2

/-- Digits alone are no float. -/
theorem float_fails (hrest : c.rest = front ++ tail) (hne : front ≠ [])
    (hfront : ∀ ch ∈ front, '0' ≤ ch ∧ ch ≤ '9') (htail : Delimited tail) :
    Fails grammar tightly (Rules.body .float).body c := by
  have hdigits := digits_take hrest hne hfront htail
  have hnext := Cursor.rest_skip_append hrest
  have hdot : Fails grammar tightly (Rules.lit ".") (c.skip front.length) :=
    text_fails fun hhead => (htail '.' (hnext ▸ hhead)).2 rfl
  have hexponent : Fails grammar tightly (Rules.word "e") (c.skip front.length) := by
    refine word_fails ?_
    rw [hnext]
    cases tail with
    | nil => rfl
    | cons ch tail =>
      refine Bool.eq_false_iff.mpr fun hword => ?_
      rw [show "e".toList = ['e'] from rfl, startsWithWord, Bool.and_eq_true] at hword
      have hletter := (htail ch rfl).1
      rcases eq_of_toLower_e (beq_iff_eq.mp hword.1).symm with rfl | rfl
      · cases hletter
      · cases hletter
  refine any_fails fun p hp => ?_
  rcases List.mem_cons.mp hp with rfl | hp
  · exact seq_fails_after hdigits (skips_of_not_loose (by decide)) (seq_fails hdot)
  · rw [List.mem_singleton.mp hp]
    exact seq_fails_after hdigits (skips_of_not_loose (by decide)) (seq_fails hexponent)

/-- An object reference, whose number may be below zero. -/
theorem object_takes {sign : List Char} (hsign : sign = [] ∨ sign = ['-'])
    (hrest : c.rest = ['#'] ++ (sign ++ (front ++ tail))) (hne : front ≠ [])
    (hfront : ∀ ch ∈ front, '0' ≤ ch ∧ ch ≤ '9') (htail : Delimited tail) :
    Takes grammar tightly (Rules.body .object).body c
      (c.skip (['#'] ++ (sign ++ front)).length) [] := by
  have hrest₁ : (c.skip 1).rest = sign ++ (front ++ tail) := Cursor.rest_skip_append hrest
  have hrest₂ := Cursor.rest_skip_append hrest₁
  have hopt : Takes grammar tightly (.opt (Rules.lit "-")) (c.skip 1)
      ((c.skip 1).skip sign.length) [] := by
    rcases hsign with rfl | rfl
    · obtain ⟨d, front, rfl⟩ := List.exists_cons_of_ne_nil hne
      refine opt_none (text_fails fun hhead => ?_)
      rw [hrest₁] at hhead
      cases hhead
      exact absurd (hfront '-' List.mem_cons_self) (by decide)
    · exact opt_takes (text_takes hrest₁)
  rw [Cursor.skip_append, Cursor.skip_append]
  exact seq_tightly (text_takes hrest) (seq_tightly hopt (digits_take hrest₂ hne hfront htail))

/-! ## Texts -/

/-- What may stand between the quotes of a text, one character or one escape. -/
abbrev textPart : Pattern Rule :=
  .any [.all [Rules.lit "\\", Rules.anyChar], .all [.notAhead (Rules.lit "\""), Rules.anyChar]]

/-- A backslash takes the next character along. -/
theorem textPart_takes_pair {ch : Char} (hrest : c.rest = '\\' :: ch :: tail) :
    Takes grammar tightly textPart c (c.skip 2) [] := by
  have hnext : (c.skip 1).rest = ch :: tail :=
    Cursor.rest_skip_append (show c.rest = ['\\'] ++ ch :: tail from hrest)
  exact alt_left (seq_tightly (text_takes hrest) (char_takes hnext rfl))

theorem textPart_takes_plain {ch : Char} (hrest : c.rest = ch :: tail) (hquote : ch ≠ '"')
    (hslash : ch ≠ '\\') : Takes grammar tightly textPart c (c.skip 1) [] := by
  have hhead {x : Char} (hx : ch ≠ x) : c.rest.head? ≠ some x := by
    rw [hrest, List.head?_cons, ne_eq, Option.some.injEq]
    exact hx
  exact alt_right (seq_fails (text_fails (hhead hslash)))
    (seq_tightly (notAhead_takes (text_fails (hhead hquote))) (char_takes hrest rfl))

theorem textPart_fails (hrest : c.rest = '"' :: tail) : Fails grammar tightly textPart c := by
  refine any_fails fun p hp => ?_
  rcases List.mem_cons.mp hp with rfl | hp
  · exact fails_at hrest 4 (by decide)
  · rw [List.mem_singleton.mp hp]
    exact seq_fails (notAhead_fails (text_takes (show c.rest = ['"'] ++ tail from hrest)))

/-- What may stand between quotes is taken up to the closing one. -/
theorem textParts_repeat {body : List Char} (hbody : Text.Quotable body)
    (hrest : c.rest = body ++ '"' :: tail) :
    Repeats grammar tightly textPart c (c.skip body.length) [] := by
  induction hbody generalizing c with
  | nil => exact repeats_stop (skips_of_not_loose (by decide)) (textPart_fails hrest)
  | @pair ch body _ ih =>
    have hrest' : (c.skip 2).rest = body ++ '"' :: tail :=
      Cursor.rest_skip_append (show c.rest = ['\\', ch] ++ (body ++ '"' :: tail) from hrest)
    have hmore := ih hrest'
    have hpair := textPart_takes_pair hrest
    have hskip : c.skip ('\\' :: ch :: body).length = (c.skip 2).skip body.length :=
      Cursor.skip_append c ['\\', ch] body
    rw [hskip]
    exact repeats_bare (skips_of_not_loose (by decide)) hpair hmore
  | @plain ch body hquote hslash _ ih =>
    have hrest' : (c.skip 1).rest = body ++ '"' :: tail :=
      Cursor.rest_skip_append (show c.rest = [ch] ++ (body ++ '"' :: tail) from hrest)
    have hmore := ih hrest'
    have hplain := textPart_takes_plain hrest hquote hslash
    have hskip : c.skip (ch :: body).length = (c.skip 1).skip body.length :=
      Cursor.skip_append c [ch] body
    rw [hskip]
    exact repeats_bare (skips_of_not_loose (by decide)) hplain hmore

theorem quoted_takes {body : List Char} (hbody : Text.Quotable body)
    (hrest : c.rest = '"' :: (body ++ ['"']) ++ tail) :
    Takes grammar tightly (Rules.body .string).body c (c.skip ('"' :: (body ++ ['"'])).length) [] := by
  have hparts : c.rest = ['"'] ++ (body ++ '"' :: tail) := by
    rw [hrest]
    simp only [List.cons_append, List.append_assoc, List.nil_append]
  have hrest₁ : (c.skip 1).rest = body ++ '"' :: tail := Cursor.rest_skip_append hparts
  have hrest₂ := Cursor.rest_skip_append hrest₁
  have hstar := star_of_repeats (skips_of_not_loose (by decide)) (textParts_repeat hbody hrest₁)
  have hskip : c.skip ('"' :: (body ++ ['"'])).length = ((c.skip 1).skip body.length).skip 1 :=
    (Cursor.skip_append c ['"'] (body ++ ['"'])).trans (Cursor.skip_append (c.skip 1) body ['"'])
  rw [hskip]
  exact seq_tightly (text_takes hparts)
    (seq_tightly hstar (text_takes (show _ = ['"'] ++ tail from hrest₂)))

theorem string_takes (text : List Char) (hrest : c.rest = Text.literal text ++ tail) :
    Takes grammar tightly (Rules.body .string).body c (c.skip (Text.literal text).length) [] :=
  quoted_takes (Text.literal_quotable text) hrest

/-! ## Words -/

theorem identChar_lt {c : Char} (h : isIdentChar c = true) : c.toNat < 0x80 := by
  have hle {bound : Char} (hc : c ≤ bound) (hbound : bound.toNat < 0x80) : c.toNat < 0x80 :=
    Nat.lt_of_le_of_lt (show c.toNat ≤ bound.toNat from hc) hbound
  simp only [isIdentChar, startsIdent, isUpper, isLower, isDigit, Bool.or_eq_true, Bool.and_eq_true,
    decide_eq_true_eq, beq_iff_eq] at h
  rcases h with ((⟨-, h⟩ | ⟨-, h⟩) | rfl) | ⟨-, h⟩
  · exact hle h (by decide)
  · exact hle h (by decide)
  · decide
  · exact hle h (by decide)

/-- What continues a word is no blank. -/
theorem still_of_identChar {ch : Char} (hhead : c.rest.head? = some ch) (hch : isIdentChar ch = true) :
    Still grammar c := by
  have hcodes : ∀ n < 0x80, isIdentChar (Char.ofNat n) = true →
      refuses grammar false (some (Char.ofNat n)) 8 Rules.blank = true := by decide
  refine still_of_refuses hhead 8 ?_
  rw [← Char.ofNat_toNat ch] at hch ⊢
  exact hcodes _ (identChar_lt (Char.ofNat_toNat ch ▸ hch)) hch

/-- What is the same letter as one that may stand in an identifier may stand there, too. -/
theorem isIdentChar_of_sameLetter {a b : Char} (h : sameLetter a b = true)
    (ha : isIdentChar a = true) : isIdentChar b = true := by
  have hcodes : ∀ n < 0x80, isIdentChar (Char.ofNat n) = true →
      isIdentChar (Char.ofNat n).toLower = true := by decide
  have hlower : isIdentChar a.toLower = true := by
    have := hcodes a.toNat (identChar_lt ha)
    rw [Char.ofNat_toNat] at this
    exact this ha
  rw [beq_iff_eq.mp h] at hlower
  unfold Char.toLower at hlower
  split at hlower
  · rename_i hupper
    have hcase : isUpper b = true := by
      simpa [isUpper, Char.le_def, ge_iff_le] using hupper
    rw [isIdentChar, startsIdent, hcase]
    rfl
  · exact hlower

/-- A word does not start a text that it does not start up to the end of another word. -/
theorem startsWithWord_eq_false {word front : List Char}
    (htail : ∀ ch, tail.head? = some ch → isIdentChar ch = false)
    (hword : word.all isIdentChar = true) (hfront : startsWithWord word front = false) :
    startsWithWord word (front ++ tail) = false := by
  induction word generalizing front with
  | nil => cases hfront
  | cons a word ih =>
    rw [List.all_cons, Bool.and_eq_true] at hword
    cases front with
    | nil =>
      cases tail with
      | nil => rfl
      | cons b tail =>
        have hab : sameLetter a b = false := by
          refine Bool.eq_false_iff.mpr fun h => ?_
          have hb := htail b rfl
          rw [isIdentChar_of_sameLetter h hword.1] at hb
          cases hb
        rw [List.nil_append, startsWithWord, hab]
        rfl
    | cons b front =>
      rw [startsWithWord, Bool.and_eq_false_iff] at hfront
      rw [List.cons_append, startsWithWord, Bool.and_eq_false_iff]
      exact hfront.imp_right (ih hword.2)

theorem startsWithWord_self (word tail : List Char) : startsWithWord word (word ++ tail) = true := by
  induction word with
  | nil => rfl
  | cons a word ih => rw [List.cons_append, startsWithWord, ih, sameLetter, beq_self_eq_true]; rfl

/-- A word is read whole. -/
theorem word_ends (hs : s.spacing ≠ .loose) (hrest : c.rest = front ++ tail)
    (h : Takes grammar s p c (c.skip front.length) [])
    (htail : ∀ ch, tail.head? = some ch → isIdentChar ch = false) :
    Takes grammar s (.all [p, Rules.wordEnd]) c (c.skip front.length) [] :=
  seq_tight hs h (wordEnd_takes (by rwa [Cursor.rest_skip_append hrest]))

theorem word_here (hrest : c.rest = front ++ tail) :
    Takes grammar s (.word front) c (c.skip front.length) [] := by
  refine word_takes ?_
  rw [hrest]
  exact startsWithWord_self front tail

/-- A keyword is no identifier. -/
theorem ident_fails {kw : String} (hs : s.spacing ≠ .loose) (hkw : kw ∈ Rules.keywords)
    (hrest : c.rest = kw.toList ++ tail) (htail : Delimited tail) :
    Fails grammar s (Rules.body .ident).body c := by
  have hplace : ∀ kw ∈ Rules.keywords, ∃ i < 19, Rules.keywords[i]? = some kw ∧
      ∀ other ∈ Rules.keywords.take i, other.toList.all isIdentChar = true ∧
        startsWithWord other.toList kw.toList = false := by decide
  obtain ⟨i, -, hi, hbefore⟩ := hplace kw hkw
  refine seq_fails (notAhead_fails (word_ends (by exact hs) hrest
    (any_takes i (p := .word kw.toList) ?_ ?_ (word_here hrest)) htail.no_ident))
  · rw [List.getElem?_map, hi]
    rfl
  · intro p hp
    rw [← List.map_take] at hp
    obtain ⟨other, hother, rfl⟩ := List.mem_map.mp hp
    obtain ⟨hword, hfront⟩ := hbefore other hother
    refine word_fails ?_
    rw [hrest]
    exact startsWithWord_eq_false htail.no_ident hword hfront

/-- Of some words, the first that stands here is taken, if one does. -/
theorem words_take (words : List String) :
    Fails grammar s (.any (words.map Rules.word)) c ∨
      ∃ w ∈ words, startsWithWord w.toList c.rest = true ∧
        Takes grammar s (.any (words.map Rules.word)) c (c.skip w.toList.length) [] := by
  induction words with
  | nil => exact .inl (any_fails nofun)
  | cons w words ih =>
    cases hw : startsWithWord w.toList c.rest with
    | true =>
      exact .inr ⟨w, List.mem_cons_self, hw, any_takes 0 rfl nofun (word_takes hw)⟩
    | false =>
      have hfails : Fails grammar s (Rules.word w) c := word_fails hw
      by_cases hne : words.map Rules.word = []
      · refine .inl (any_fails ?_)
        rw [List.map_cons, hne]
        exact List.forall_mem_singleton.mpr hfails
      · rw [List.map_cons, any_cons hne]
        rcases ih with h | ⟨w', hw', hstarts, htakes⟩
        · exact .inl (alt_right hfails h)
        · exact .inr ⟨w', List.mem_cons_of_mem _ hw', hstarts, alt_right hfails htakes⟩

/-- A word that starts a longer or an equal one. -/
theorem startsWithWord_append {word front : List Char}
    (htail : ∀ ch, tail.head? = some ch → isIdentChar ch = false)
    (hword : word.all isIdentChar = true) (h : startsWithWord word (front ++ tail) = true) :
    word.map Char.toLower = front.map Char.toLower ∨
      ∃ ch, (front.drop word.length).head? = some ch := by
  induction word generalizing front with
  | nil =>
    cases front with
    | nil => exact .inl rfl
    | cons ch front => exact .inr ⟨ch, rfl⟩
  | cons a word ih =>
    cases front with
    | nil =>
      rw [startsWithWord_eq_false htail hword rfl] at h
      cases h
    | cons b front =>
      rw [List.all_cons, Bool.and_eq_true] at hword
      rw [List.cons_append, startsWithWord, Bool.and_eq_true] at h
      refine (ih hword.2 h.2).imp_left fun heq => ?_
      rw [List.map_cons, List.map_cons, heq, beq_iff_eq.mp h.1]

/-- A text that is a word: a letter, and characters that may stand in an identifier. -/
structure IsWord (front : List Char) : Prop where
  starts : ∃ ch, front.head? = some ch ∧ startsIdent ch = true
  chars : ∀ ch ∈ front, isIdentChar ch = true

/-- Words in lower case, none of which is the word that stands here. -/
def Others (words : List String) (front : List Char) : Prop :=
  ∀ w ∈ words, w.toList.all isIdentChar = true ∧ w.toList.map Char.toLower = w.toList ∧
    w.toList ≠ front.map Char.toLower

/-- A word is not taken for another, even if it starts with that. -/
theorem words_fail {words : List String} (hs : s.spacing ≠ .loose) (hrest : c.rest = front ++ tail)
    (hfront : IsWord front) (hwords : Others words front) (htail : Delimited tail) :
    Fails grammar s (.all [.any (words.map Rules.word), Rules.wordEnd]) c := by
  rcases words_take (s := s) (c := c) words with hfails | ⟨w, hmem, hstarts, htakes⟩
  · exact seq_fails hfails
  -- The word that is found is shorter, and what stands here goes on behind it.
  obtain ⟨hletters, hlower, hne⟩ := hwords w hmem
  rw [hrest] at hstarts
  obtain ⟨x, hx⟩ := (startsWithWord_append htail.no_ident hletters hstarts).resolve_left
    fun heq => hne (hlower ▸ heq)
  obtain ⟨more, hmore⟩ := List.head?_eq_some_iff.mp hx
  have hlength : w.toList.length ≤ front.length := by
    by_contra hlt
    rw [List.drop_eq_nil_of_le (by omega)] at hmore
    cases hmore
  have hnext : (c.skip w.toList.length).rest = x :: (more ++ tail) := by
    rw [Cursor.rest_skip, hrest, List.drop_append_of_le_length hlength, hmore]
    rfl
  have hident := hfront.chars x (List.mem_of_mem_drop (hmore ▸ List.mem_cons_self))
  exact seq_fails_after htakes (skips_of_not_loose hs) (notAhead_fails (char_takes hnext hident))

/-- A word that is no keyword is an identifier. -/
theorem ident_takes (hs : s.spacing ≠ .loose) (hrest : c.rest = front ++ tail)
    (hfront : IsWord front) (hkeywords : Others Rules.keywords front) (htail : Delimited tail) :
    Takes grammar s (Rules.body .ident).body c (c.skip front.length) [] := by
  have hnone := notAhead_takes (words_fail (s := { s with probing := true, negated := true })
    (by exact hs) hrest hfront hkeywords htail)
  obtain ⟨ch, hhead, hch⟩ := hfront.starts
  obtain ⟨more, rfl⟩ := List.head?_eq_some_iff.mp hhead
  have hrest₁ : (c.skip 1).rest = more ++ tail :=
    Cursor.rest_skip_append (show c.rest = [ch] ++ (more ++ tail) from hrest)
  have hstar : Takes grammar s (.star (.char isIdentChar)) (c.skip 1) _ [] :=
    star_chars hs hrest₁ (fun x hx => hfront.chars x (List.mem_cons_of_mem _ hx)) htail.no_ident
  rw [Cursor.skip_add, Nat.add_comm] at hstar
  exact seq_tight hs hnone (seq_tight hs (char_takes hrest hch) hstar)

/-- The keywords that are values. -/
def constantWords : List String := ["null", "true", "false"]

theorem constantWords_keywords : constantWords ⊆ Rules.keywords := by decide

/-- A character of an error code. -/
def isCodeChar (ch : Char) : Bool := isUpper ch || isDigit ch || ch == '_'

theorem errorCode_takes (hrest : c.rest = ['E', '_'] ++ (front ++ tail)) (hne : front ≠ [])
    (hfront : ∀ ch ∈ front, isCodeChar ch = true) (htail : Delimited tail) :
    Takes grammar tightly (Rules.body .errorCode).body c
      (c.skip (['E', '_'] ++ front).length) [] := by
  have hrest₁ := Cursor.rest_skip_append hrest
  have hword : Takes grammar tightly (.plus (.char isCodeChar)) (c.skip ['E', '_'].length) _ [] :=
    plus_chars (by decide) hrest₁ hne hfront fun ch hch => by
      have hident := htail.no_ident ch hch
      simp only [isIdentChar, startsIdent, isCodeChar, Bool.or_eq_false_iff] at hident ⊢
      tauto
  rw [Cursor.skip_append]
  exact seq_tightly (text_takes hrest)
    (word_ends (by decide) hrest₁ hword htail.no_ident)

/-- The name of an error code is an identifier too. -/
theorem codeName_ident_takes (hrest : c.rest = ['E', '_'] ++ (front ++ tail))
    (hfront : ∀ ch ∈ front, isCodeChar ch = true) (htail : Delimited tail) :
    Takes grammar tightly (Rules.body .ident).body c (c.skip (['E', '_'] ++ front).length) [] := by
  have hwhole : c.rest = (['E', '_'] ++ front) ++ tail := by rw [hrest, List.append_assoc]
  refine ident_takes (by decide) hwhole ⟨⟨'E', rfl, rfl⟩, ?_⟩ ?_ htail
  · refine List.forall_mem_append.mpr ⟨List.all_eq_true.mp (by decide), fun ch hch => ?_⟩
    have := hfront ch hch
    simp only [isCodeChar, isIdentChar, startsIdent, Bool.or_eq_true] at this ⊢
    tauto
  · have hwords : ∀ kw ∈ Rules.keywords, kw.toList.all isIdentChar = true ∧
        kw.toList.map Char.toLower = kw.toList ∧ kw.toList.take 2 ≠ ['e', '_'] := by decide
    intro kw hkw
    obtain ⟨hletters, hlower, hstart⟩ := hwords kw hkw
    refine ⟨hletters, hlower, fun heq => hstart ?_⟩
    rw [heq]
    rfl

end Lineage.Script
