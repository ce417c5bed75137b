/-
  Lineage.Proofs.Script.TokenMatching

  What patterns do to texts that spell tokens.

  Between the tokens of a text the grammar skips the gaps, so it is enough to know which
  tokens are left (`Ahead`).  `Eats` says that a pattern leads from one list of tokens to
  another and what trees it leaves, `Loops` says so of its repetition, and `Refuses` that it
  does not match.  Whether a pattern does not match at a token can mostly be computed
  (`declines`).
-/
import Lineage.Proofs.Script.Printing

namespace Lineage

theorem Cursor.offset_le_skip (n : Nat) (c : Cursor) : c.offset ≤ (c.skip n).offset := by
  induction n generalizing c with
  | zero => exact Nat.le_refl _
  | succ n ih =>
    refine Nat.le_trans ?_ (ih c.advance)
    unfold advance
    split
    · exact Nat.le_refl _
    · exact Nat.le_succ _
    · exact Nat.le_succ _

namespace Grammar

variable {ρ : Type} {g : Grammar ρ} {s : Setting} {p q : Pattern ρ} {c : Cursor}

theorem text_fails_of_no_start {chars : List Char} (h : chars.isPrefixOf c.rest = false) :
    Fails g s (.text chars) c :=
  gives_of_forall fun _ _ => by rw [run, h]; rfl

theorem ahead_fails (h : Fails g { s with probing := true } p c) : Fails g s (.ahead p) c := by
  refine gives_of_succ ?_
  filter_upwards [h] with fuel e f
  have e := e f
  rw [run]
  split
  · rfl
  · rename_i heq
    rw [heq] at e
    cases e

/-- A sequence fails with its second part where the first part is a look-ahead. -/
theorem seq_fails_behind_probe (hp : (∃ p', p = .ahead p') ∨ ∃ p', p = .notAhead p')
    (hskip : Skips g s c c) (h : Fails g s q c) : Fails g s (.seq p q) c := by
  refine gives_of_succ ?_
  filter_upwards [hskip, h] with fuel eskip e f
  rw [run]
  split
  · rfl
  · rename_i f₁ c₁ ts hrun
    have hstays : c₁ = c := by
      rcases hp with ⟨p', rfl⟩ | ⟨p', rfl⟩
      all_goals
        cases fuel with
        | zero => cases hrun
        | succ fuel =>
          rw [run] at hrun
          split at hrun <;> cases hrun
          rfl
    subst hstays
    rw [eskip]
    have e := e f₁
    split
    · rfl
    · rename_i heq
      rw [heq] at e
      cases e

/-- Nothing leads back in the text. -/
theorem run_offset (fuel : Nat) :
    (∀ {s p c f f' c' ts}, g.run fuel s p c f = (f', some (c', ts)) → c.offset ≤ c'.offset) ∧
    (∀ s p c f done, c.offset ≤ (g.loop fuel s p c f done).2.1.offset) ∧
    ∀ s c, c.offset ≤ (g.blanks fuel s c).offset := by
  -- The three call one another, each time with less fuel.
  induction fuel with
  | zero => simp [run_zero, loop, blanks]
  | succ fuel ih =>
    obtain ⟨hrun, hloop, hblanks⟩ := ih
    refine ⟨?_, ?_, ?_⟩
    · intro s p c f f' c' ts h
      cases p with
      | text | word | finish =>
        simp only [run, Prod.mk.injEq, Option.ite_none_right_eq_some, Option.some.injEq] at h
        obtain ⟨-, -, h⟩ := h
        cases h
        first
          | exact Cursor.offset_le_skip _ c
          | exact Nat.le_refl _
      | char =>
        simp only [run] at h
        split at h
        · simp only [Prod.mk.injEq, Option.ite_none_right_eq_some, Option.some.injEq] at h
          obtain ⟨-, -, h⟩ := h
          cases h
          exact Cursor.offset_le_skip 1 c
        · cases h
      | seq first second =>
        simp only [run] at h
        split at h
        · cases h
        · rename_i c₁ _ hfirst
          split at h
          · cases h
          · rename_i hsecond
            cases h
            exact (hrun hfirst).trans ((hblanks s c₁).trans (hrun hsecond))
      | alt =>
        simp only [run] at h
        split at h <;> exact hrun h
      | opt =>
        simp only [run] at h
        split at h
        · cases h
          exact Nat.le_refl _
        · exact hrun h
      | star p =>
        simp only [run] at h
        split at h
        · cases h
          exact Nat.le_refl _
        · rename_i f₁ c₁ trees hp
          cases h
          exact (hrun hp).trans (hloop s p c₁ f₁ trees.reverse)
      | ahead | notAhead =>
        simp only [run] at h
        split at h <;> cases h
        exact Nat.le_refl _
      | rule r =>
        simp only [run] at h
        split at h
        · split at h <;> cases h
        · rename_i hbody
          split at h <;> cases h <;> exact hrun hbody
    · intro s p c f done
      rw [loop]
      split
      · exact Nat.le_refl _
      · rename_i hp
        exact (hblanks s c).trans ((hrun hp).trans (hloop _ _ _ _ _))
    · intro s c
      rw [blanks]
      split
      · exact hloop _ _ _ _ _
      · exact Nat.le_refl _

/-- What is taken is not behind what it was taken from. -/
theorem Takes.offset_le {c' : Cursor} {ts : List (Tree ρ)} (h : Takes g s p c c' ts) :
    c.offset ≤ c'.offset := by
  obtain ⟨fuel, hrun⟩ := h.exists
  exact (run_offset fuel).1 (Prod.ext rfl (hrun {}))

theorem Skips.offset_le {c' : Cursor} (h : Skips g s c c') : c.offset ≤ c'.offset := by
  obtain ⟨fuel, rfl⟩ := h.exists
  exact (run_offset fuel).2.2 s c

end Grammar

namespace Script

open Grammar

/-! ## Gaps -/

/-- A token that no blank starts with: a slash is one only if it stands alone. -/
def Solid (t : String) : Prop :=
  t = "/" ∨ (t.toList.head?.any fun ch => !isSpace ch && ch != '/') = true

/-- The text ends or goes on with a space. -/
def Loosened (text : List Char) : Prop := ∀ ch, text.head? = some ch → isSpace ch = true

theorem Loosened.delimited {text : List Char} (h : Loosened text) : Delimited text := by
  intro ch hch
  have hspace := h ch hch
  simp only [isSpace, Bool.or_eq_true, beq_iff_eq] at hspace
  rcases hspace with ((rfl | rfl) | rfl) | rfl <;> decide

variable {s : Setting} {c : Cursor} {t : String} {tail : List Char}

theorem refuses_blank {ch : Char} (hspace : isSpace ch = false) (hslash : ch ≠ '/') :
    refuses grammar false (some ch) 8 Rules.blank = true := by
  simp only [isSpace, Bool.or_eq_false_iff, beq_eq_false_iff_ne, ne_eq] at hspace
  simp [refuses, Rules.blank, Pattern.any, Pattern.all, Rules.newLine, Rules.lit, hspace, hslash]

/-- A text does not start with another that goes on with something that is no space. -/
theorem isPrefixOf_eq_false {chars front : List Char} (htail : Loosened tail)
    (h : chars.all (fun ch => !isSpace ch) = true ∧ chars.isPrefixOf front = false) :
    chars.isPrefixOf (front ++ tail) = false := by
  obtain ⟨hchars, hfront⟩ := h
  induction chars generalizing front with
  | nil => cases hfront
  | cons a chars ih =>
    rw [List.all_cons, Bool.and_eq_true] at hchars
    cases front with
    | nil =>
      -- All of the front is there: now there would have to be a space in `chars`.
      cases tail with
      | nil => rfl
      | cons b tail =>
        have hb := htail b rfl
        have hab : (a == b) = false := by
          refine beq_false_of_ne ?_
          rintro rfl
          rw [hb] at hchars
          cases hchars.1
        rw [List.nil_append, List.isPrefixOf, hab]
        rfl
    | cons b front =>
      rw [List.isPrefixOf, Bool.and_eq_false_iff] at hfront
      rw [List.cons_append, List.isPrefixOf, Bool.and_eq_false_iff]
      exact hfront.imp_right (ih hchars.2)

theorem blank_fails_at {t : String} (h : Solid t) (hrest : c.rest = t.toList ++ tail) (htail : Loosened tail) :
    Fails grammar s Rules.blank c := by
  rcases h with rfl | h
  · -- A slash that stands alone opens no comment: behind it there is a space or nothing.
    have hfails {chars : List Char} (h : chars.all (fun ch => !isSpace ch) = true ∧
        chars.isPrefixOf ['/'] = false) : Fails grammar s (.text chars) c := by
      refine text_fails_of_no_start ?_
      rw [hrest]
      exact isPrefixOf_eq_false htail h
    have hother {ch : Char} {chars : List Char} (h : ch ≠ '/') :
        Fails grammar s (.text (ch :: chars)) c := by
      refine text_fails ?_
      rw [hrest]
      simpa using h.symm
    exact alt_right (hother (by decide)) (alt_right (hother (by decide)) (alt_right
      (alt_right (hother (by decide)) (alt_right (hother (by decide)) (hother (by decide))))
      (alt_right (seq_fails (hfails (by decide))) (seq_fails (hfails (by decide))))))
  · simp only [Option.any_eq_true, Bool.and_eq_true, Bool.not_eq_true', bne_iff_ne] at h
    obtain ⟨ch, hhead, hspace, hslash⟩ := h
    have hc : c.rest.head? = some ch := by rw [hrest, List.head?_append, hhead]; rfl
    exact blank_fails hc 8 (refuses_blank hspace hslash)

/-- The setting in a negative look-ahead inside a blank. -/
abbrev watching : Setting := { tightly with probing := true, negated := true }

/-- Characters are taken up to where a pattern matches. -/
theorem until_takes {q : Pattern Rule} {body : List Char} {c' : Cursor} {ts : List (Tree Rule)}
    (hrest : c.rest = body ++ tail)
    (hbody : ∀ front back, body = front ++ back → back ≠ [] →
      ∀ c, c.rest = back ++ tail → Fails grammar watching q c)
    (hend : Takes grammar watching q (c.skip body.length) c' ts) :
    Takes grammar tightly (.star (.all [.notAhead q, Rules.anyChar])) c (c.skip body.length) [] := by
  refine star_of_repeats (skips_of_not_loose (by decide)) ?_
  induction body generalizing c with
  | nil => exact repeats_stop (skips_of_not_loose (by decide)) (seq_fails (notAhead_fails hend))
  | cons ch body ih =>
    have hhere : Fails grammar watching q c :=
      hbody [] (ch :: body) rfl (List.cons_ne_nil _ _) c hrest
    refine repeats_bare (skips_of_not_loose (by decide))
      (seq_tightly (notAhead_takes hhere) (char_takes hrest rfl)) ?_
    rw [List.length_cons, Nat.add_comm, ← Cursor.skip_add] at hend ⊢
    refine ih (by rw [Cursor.rest_skip, hrest]; rfl) (fun front back hparts => ?_) hend
    exact hbody (ch :: front) back (by rw [hparts]; rfl)

/-- A line end is taken, two characters of it together. -/
theorem newLine_takes {ch : Char} (hrest : c.rest = ch :: tail) (hch : ch = '\n' ∨ ch = '\r') :
    ∃ n, (n = 1 ∨ n = 2 ∧ tail.head? = some '\n') ∧ Takes grammar s Rules.newLine c (c.skip n) [] := by
  rcases hch with rfl | rfl
  · exact ⟨1, .inl rfl, alt_left (text_takes (show c.rest = ['\n'] ++ tail from hrest))⟩
  · have hfeed : Fails grammar s (Rules.lit "\n") c := by
      refine text_fails ?_
      rw [hrest]
      exact (by decide : some '\r' ≠ some '\n')
    by_cases hx : tail.head? = some '\n'
    · obtain ⟨tail', rfl⟩ := List.head?_eq_some_iff.mp hx
      exact ⟨2, .inr ⟨rfl, rfl⟩, alt_right hfeed
        (alt_left (text_takes (show c.rest = ['\r', '\n'] ++ tail' from hrest)))⟩
    · refine ⟨1, .inl rfl, alt_right hfeed (alt_right (text_fails_of_no_start ?_)
        (text_takes (show c.rest = ['\r'] ++ tail from hrest)))⟩
      rw [hrest]
      cases tail with
      | nil => rfl
      | cons x tail =>
        have hne : ('\n' == x) = false := beq_false_of_ne fun h => hx (by rw [h]; rfl)
        show ('\r' == '\r' && ('\n' == x && true)) = false
        rw [hne]
        rfl

/-- White space is one blank, but for a line end of two characters. -/
theorem space_takes {ch : Char} (hrest : c.rest = ch :: tail) (hch : isSpace ch = true) :
    ∃ n, (n = 1 ∨ n = 2 ∧ tail.head? = some '\n') ∧
      Takes grammar tightly Rules.blank c (c.skip n) [] := by
  simp only [isSpace, Bool.or_eq_true, beq_iff_eq] at hch
  have hother {x : Char} (h : ch ≠ x) : Fails grammar tightly (.text [x]) c := by
    refine text_fails ?_
    rw [hrest, List.head?_cons, ne_eq, Option.some.injEq]
    exact h
  rcases hch with ((rfl | rfl) | hch) | hch
  · exact ⟨1, .inl rfl, alt_left (text_takes (show c.rest = [' '] ++ tail from hrest))⟩
  · exact ⟨1, .inl rfl, alt_right (hother (by decide))
      (alt_left (text_takes (show c.rest = ['\t'] ++ tail from hrest)))⟩
  all_goals
    obtain ⟨n, hn, htakes⟩ := newLine_takes (s := tightly) hrest (by simp [hch])
    subst hch
    exact ⟨n, hn, alt_right (hother (by decide))
      (alt_right (hother (by decide)) (alt_left htakes))⟩

theorem newLine_fails {ch : Char} (hrest : c.rest = ch :: tail) (hch : ch ≠ '\n' ∧ ch ≠ '\r') :
    Fails grammar s Rules.newLine c := by
  have hhead {x : Char} (hx : ch ≠ x) : c.rest.head? ≠ some x := by
    rw [hrest, List.head?_cons, ne_eq, Option.some.injEq]
    exact hx
  exact alt_right (text_fails (hhead hch.1))
    (alt_right (text_fails (hhead hch.2)) (text_fails (hhead hch.2)))

/-- A text that starts with a slash starts with no space. -/
theorem spaces_fail_at_slash (hrest : c.rest = '/' :: tail) :
    ∀ p ∈ [Rules.lit " ", Rules.lit "\t", Rules.newLine], Fails grammar s p c := by
  have hhead {x : Char} (hx : '/' ≠ x) : c.rest.head? ≠ some x := by
    rw [hrest, List.head?_cons, ne_eq, Option.some.injEq]
    exact hx
  intro p hp
  simp only [List.mem_cons, List.not_mem_nil, or_false] at hp
  rcases hp with rfl | rfl | rfl
  · exact text_fails (hhead (by decide))
  · exact text_fails (hhead (by decide))
  · exact newLine_fails hrest (by decide)

/-- A comment up to the first end of a comment in it is one blank. -/
theorem block_takes {body : List Char} (hbody : ¬ ['*', '/'] <:+: body)
    (hrest : c.rest = '/' :: '*' :: body ++ '*' :: '/' :: tail) :
    Takes grammar tightly Rules.blank c (c.skip (body.length + 4)) [] := by
  have hopen : c.rest = ['/', '*'] ++ (body ++ ('*' :: '/' :: tail)) := hrest
  have hrest₁ := Cursor.rest_skip_append hopen
  have hrest₂ := Cursor.rest_skip_append hrest₁
  have hclose {s : Setting} := text_takes (g := grammar) (s := s)
    (show ((c.skip ['/', '*'].length).skip body.length).rest = ['*', '/'] ++ tail from hrest₂)
  have hinner := until_takes (q := Rules.lit "*/") hrest₁ (fun front back hparts hne c' hc' => ?_) hclose
  · have hskip : c.skip (body.length + 4) =
        ((c.skip ['/', '*'].length).skip body.length).skip ['*', '/'].length := by
      rw [Cursor.skip_add, Cursor.skip_add]
      congr 1
      simp only [List.length_cons, List.length_nil]
      omega
    rw [hskip]
    exact any_takes 3 rfl (spaces_fail_at_slash hrest)
      (seq_tightly (text_takes hopen) (seq_tightly hinner hclose))
  · -- An end of a comment here would be one in the body.
    refine text_fails_of_no_start ?_
    rw [hc']
    match back, hne with
    -- Nor can the last character of the body be the star of one, as another star follows it.
    | [x], _ =>
      show ('*' == x && ('/' == '*' && _)) = false
      rw [Bool.and_eq_false_iff]
      exact .inr rfl
    | x :: y :: back, _ =>
      refine Bool.eq_false_iff.mpr fun hprefix => hbody ?_
      obtain ⟨more, hmore⟩ := List.isPrefixOf_iff_prefix.mp hprefix
      cases hmore
      exact ⟨front, back, by rw [hparts, List.append_assoc]; rfl⟩

/-- A comment up to the end of its line is one blank. -/
theorem line_takes {body : List Char} {ch : Char} (hbody : ∀ x ∈ body, x ≠ '\n' ∧ x ≠ '\r')
    (hch : ch = '\n' ∨ ch = '\r') (hrest : c.rest = '/' :: '/' :: body ++ ch :: tail) :
    Takes grammar tightly Rules.blank c (c.skip (body.length + 2)) [] := by
  have hopen : c.rest = ['/', '/'] ++ (body ++ (ch :: tail)) := hrest
  have hrest₁ := Cursor.rest_skip_append hopen
  have hrest₂ := Cursor.rest_skip_append hrest₁
  obtain ⟨n, -, hend⟩ := newLine_takes (s := watching) hrest₂ hch
  have hinner := until_takes (q := Rules.newLine) hrest₁ (fun front back hparts hne c' hc' => ?_) hend
  · have hskip : c.skip (body.length + 2) = (c.skip ['/', '/'].length).skip body.length := by
      rw [Cursor.skip_add, Nat.add_comm]
      rfl
    rw [hskip]
    refine any_takes 4 rfl (fun p hp => ?_) (seq_tightly (text_takes hopen) hinner)
    rcases List.mem_append.mp (show p ∈ [_, _, _] ++ [_] from hp) with hp | hp
    · exact spaces_fail_at_slash hrest p hp
    · rw [List.mem_singleton.mp hp]
      refine seq_fails (text_fails_of_no_start ?_)
      rw [hrest]
      rfl
  · obtain ⟨x, back, rfl⟩ := List.exists_cons_of_ne_nil hne
    exact newLine_fails hc' (hbody x (hparts ▸ List.mem_append_right _ List.mem_cons_self))

/-- Blanks are taken up to where none starts. -/
theorem blanks_repeat {blanks : List Char} (h : Blanks blanks) (hrest : c.rest = blanks ++ tail)
    (htail : tail.head? ≠ some '\n')
    (hstop : ∀ c, c.rest = tail → Fails grammar tightly Rules.blank c) :
    Repeats grammar tightly Rules.blank c (c.skip blanks.length) [] := by
  -- On the length, not on `Blanks`: of a line end of two characters the text has two blanks, but
  -- the grammar takes both at once.
  induction hn : blanks.length using Nat.strong_induction_on generalizing blanks c with
  | _ n ih =>
    subst hn
    have hmore (front : List Char) {back : List Char} (hparts : blanks = front ++ back) (hne : front ≠ [])
        (hback : Blanks back) (htakes : Takes grammar tightly Rules.blank c (c.skip front.length) []) :
        Repeats grammar tightly Rules.blank c (c.skip blanks.length) [] := by
      have hrest' : (c.skip front.length).rest = back ++ tail :=
        Cursor.rest_skip_append (by rw [hrest, hparts, List.append_assoc])
      have hlength := List.length_pos_iff.mpr hne
      rw [hparts, Cursor.skip_append]
      refine repeats_bare (skips_of_not_loose (by decide)) htakes (ih _ ?_ hback hrest' rfl)
      rw [hparts, List.length_append]
      omega
    cases h with
    | nil => exact repeats_stop (skips_of_not_loose (by decide)) (hstop c hrest)
    | @space ch rest hch h =>
      have hhere : c.rest = ch :: (rest ++ tail) := hrest
      obtain ⟨n, hn, htakes⟩ := space_takes hhere hch
      rcases hn with rfl | ⟨rfl, hhead⟩
      · exact hmore [ch] rfl (by simp) h htakes
      · cases h with
        | nil => exact absurd hhead htail
        | @space ch' rest hch' h =>
          exact hmore [ch, ch'] rfl (by simp) h htakes
        | block => cases hhead
        | line => cases hhead
    | @block body rest hbody h =>
      refine hmore ('/' :: '*' :: body ++ ['*', '/']) (by simp) (by simp) h ?_
      have hblock : c.rest = '/' :: '*' :: body ++ '*' :: '/' :: (rest ++ tail) := by
        rw [hrest]
        simp
      simpa using block_takes hbody hblock
    | @line body rest ch hbody hch h =>
      refine hmore ('/' :: '/' :: body) rfl (by simp) h ?_
      have hline : c.rest = '/' :: '/' :: body ++ ch :: (rest ++ tail) := by
        rw [hrest]
        simp
      simpa using line_takes hbody hch hline

/-! ## The tokens that are left -/

/-- No blanks are skipped at the cursor. -/
def Calm (c : Cursor) : Prop := ∀ s, Skips grammar s c c

theorem calm_of_blank_fails (h : Fails grammar tightly Rules.blank c) : Calm c := by
  intro s
  by_cases hs : s.spacing = .loose
  · exact skips_of_repeats hs (repeats_stop (skips_of_not_loose (by decide)) h)
  · exact skips_of_not_loose hs

/-- The cursor is at the first of the tokens that are left, or at the end of the text. -/
def Ahead : List String → Cursor → Prop
  | [], c => c.rest = []
  | t :: ts, c => Calm c ∧ ∃ tail, c.rest = t.toList ++ tail ∧ Loosened tail ∧
      ∃ c', Skips grammar {} (c.skip t.toList.length) c' ∧ Ahead ts c'

theorem blank_fails_at_end (h : c.rest = []) : Fails grammar s Rules.blank c :=
  blank_fails (x := none) (by rw [h]; rfl) 8 (by decide)

theorem Ahead.calm {ts : List String} (h : Ahead ts c) : Calm c := by
  cases ts with
  | nil => exact calm_of_blank_fails (blank_fails_at_end h)
  | cons t ts => exact h.1

theorem loosened_of_spaced {ts : List String} (h : Spaced ts tail) : Loosened tail := by
  have hgap {gap rest : List Char} (h : Gap gap) : Loosened (gap ++ rest) := by
    obtain ⟨-, ch, hch, hspace⟩ := h
    intro x hx
    rw [List.head?_append, Option.mem_def.mp hch] at hx
    cases hx
    exact hspace
  cases ts with
  | nil =>
    rcases h with rfl | h
    · exact nofun
    · exact List.append_nil tail ▸ hgap h
  | cons t ts =>
    obtain ⟨gap, rest, rfl, h, -⟩ := h
    exact hgap h

/-- Blanks are skipped up to a token. -/
theorem skips_to_token {blanks : List Char} (h : Blanks blanks) (ht : Solid t)
    (hrest : c.rest = blanks ++ (t.toList ++ tail)) (htail : Loosened tail) :
    Skips grammar {} c (c.skip blanks.length) ∧ Calm (c.skip blanks.length) := by
  have hstop (c : Cursor) (hc : c.rest = t.toList ++ tail) : Fails grammar tightly Rules.blank c :=
    blank_fails_at ht hc htail
  refine ⟨skips_of_repeats rfl (blanks_repeat h hrest (fun hhead => ?_) hstop),
    calm_of_blank_fails (hstop _ (Cursor.rest_skip_append hrest))⟩
  -- The token does not start with a line feed, which a carriage return before it would take along.
  rcases ht with rfl | ht
  · cases hhead
  · simp only [Option.any_eq_true, Bool.and_eq_true, Bool.not_eq_true'] at ht
    obtain ⟨ch, hch, hspace, -⟩ := ht
    rw [List.head?_append, hch] at hhead
    cases hhead
    cases hspace

/-- Blanks are skipped up to the end of the text. -/
theorem skips_to_end {blanks : List Char} (h : Blanks blanks) (hrest : c.rest = blanks) :
    ∃ c', Skips grammar {} c c' ∧ c'.rest = [] := by
  have hrest' : c.rest = blanks ++ [] := by rw [hrest, List.append_nil]
  exact ⟨_, skips_of_repeats rfl (blanks_repeat h hrest' nofun fun _ => blank_fails_at_end),
    Cursor.rest_skip_append hrest'⟩

theorem ahead_of_spaced {ts : List String} (hts : ∀ t ∈ ts, Solid t) (h : Spaced ts c.rest) :
    ∃ c', Skips grammar {} c c' ∧ Ahead ts c' := by
  induction ts generalizing c with
  | nil =>
    rcases h with h | h
    · exact ⟨c, calm_of_blank_fails (blank_fails_at_end h) _, h⟩
    · exact skips_to_end h.1 rfl
  | cons t ts ih =>
    obtain ⟨gap, rest, hrest, hgap, h⟩ := h
    rw [List.forall_mem_cons] at hts
    have htail := loosened_of_spaced h
    obtain ⟨hskip, hcalm⟩ := skips_to_token hgap.1 hts.1 hrest htail
    have htoken := Cursor.rest_skip_append hrest
    obtain ⟨c', hskip', hahead⟩ := ih (c := (c.skip gap.length).skip t.toList.length) hts.2
      (by rwa [Cursor.rest_skip_append htoken])
    exact ⟨_, hskip, hcalm, rest, htoken, htail, c', hskip', hahead⟩

/-- Behind the blanks at its start a text that spells tokens has all of them left. -/
theorem ahead_of_laidOut {ts : List String} (hts : ∀ t ∈ ts, Solid t) (h : LaidOut ts c.rest) :
    ∃ c', Skips grammar {} c c' ∧ Ahead ts c' := by
  cases ts with
  | nil => exact skips_to_end h rfl
  | cons t ts =>
    obtain ⟨blanks, rest, hrest, hblanks, h⟩ := h
    rw [List.forall_mem_cons] at hts
    have htail := loosened_of_spaced h
    obtain ⟨hskip, hcalm⟩ := skips_to_token hblanks hts.1 hrest htail
    have htoken := Cursor.rest_skip_append hrest
    obtain ⟨c', hskip', hahead⟩ := ahead_of_spaced
      (c := (c.skip blanks.length).skip t.toList.length) hts.2
      (by rwa [Cursor.rest_skip_append htoken])
    exact ⟨_, hskip, hcalm, rest, htoken, htail, c', hskip', hahead⟩

/-! ## From token to token -/

/-- What a match leaves when it leaves no trees. -/
abbrev Bare (ts : List (Tree Rule)) : Prop := ts = []

/-- Trees of one kind before trees of another. -/
def Joined (P Q : List (Tree Rule) → Prop) (ts : List (Tree Rule)) : Prop :=
  ∃ us vs, ts = us ++ vs ∧ P us ∧ Q vs

/-- The one tree of a rule. -/
def Rooted (r : Rule) (P : List (Tree Rule) → Prop) (ts : List (Tree Rule)) : Prop :=
  ∃ line column text us, ts = [.node r line column text us] ∧ P us

/-- The pattern leads from some tokens to others, and its trees satisfy `P`. -/
def Eats (p : Pattern Rule) (a b : List String) (P : List (Tree Rule) → Prop) : Prop :=
  ∀ c, Ahead a c → ∃ c₁ c₂ ts,
    Takes grammar {} p c c₁ ts ∧ Skips grammar {} c₁ c₂ ∧ Ahead b c₂ ∧ P ts

/-- The pattern does not match where these tokens are left. -/
def Refuses (p : Pattern Rule) (a : List String) : Prop :=
  ∀ c, Ahead a c → Fails grammar {} p c

/-- To repeat the pattern leads from some tokens to others. -/
def Loops (p : Pattern Rule) (a b : List String) (P : List (Tree Rule) → Prop) : Prop :=
  ∀ c d, Skips grammar {} c d → Ahead a d →
    ∃ c₁ c₂ ts, Repeats grammar {} p c c₁ ts ∧ Skips grammar {} c₁ c₂ ∧ Ahead b c₂ ∧ P ts

variable {p q : Pattern Rule} {r : Rule} {a b d : List String}
  {P P' Q : List (Tree Rule) → Prop}

namespace Eats

theorem imp (h : Eats p a b P) (himp : ∀ ts, P ts → P' ts) : Eats p a b P' := by
  intro c hc
  obtain ⟨c₁, c₂, ts, htakes, hskip, hc₂, hP⟩ := h c hc
  exact ⟨c₁, c₂, ts, htakes, hskip, hc₂, himp ts hP⟩

theorem seq (h : Eats p a b P) (h' : Eats q b d Q) : Eats (.seq p q) a d (Joined P Q) := by
  intro c hc
  obtain ⟨c₁, c₂, ts, htakes, hskip, hc₂, hP⟩ := h c hc
  obtain ⟨c₃, c₄, us, htakes', hskip', hc₄, hQ⟩ := h' c₂ hc₂
  exact ⟨c₃, c₄, ts ++ us, seq_takes htakes hskip htakes', hskip', hc₄, ts, us, rfl, hP, hQ⟩

/-- The first part leaves no trees. -/
theorem skip (h : Eats p a b Bare) (h' : Eats q b d Q) : Eats (.seq p q) a d Q := by
  refine (h.seq h').imp ?_
  rintro _ ⟨_, vs, rfl, rfl, hQ⟩
  exact hQ

/-- The second part leaves no trees. -/
theorem close (h : Eats p a b P) (h' : Eats q b d Bare) : Eats (.seq p q) a d P := by
  refine (h.seq h').imp ?_
  rintro _ ⟨us, _, rfl, hP, rfl⟩
  rwa [List.append_nil]

/-- Of alternatives, the first one that does not refuse the tokens. -/
theorem any {l : List (Pattern Rule)} (i : Nat) (hp : l[i]? = some p)
    (hbefore : ∀ q ∈ l.take i, Refuses q a) (h : Eats p a b P) : Eats (.any l) a b P := by
  intro c hc
  obtain ⟨c₁, c₂, ts, htakes, hrest⟩ := h c hc
  exact ⟨c₁, c₂, ts, any_takes i hp (fun q hq => hbefore q hq c hc) htakes, hrest⟩

theorem opt (h : Eats p a b P) : Eats (.opt p) a b P := by
  intro c hc
  obtain ⟨c₁, c₂, ts, htakes, hrest⟩ := h c hc
  exact ⟨c₁, c₂, ts, opt_takes htakes, hrest⟩

theorem opt_none (h : Refuses p a) : Eats (.opt p) a a Bare :=
  fun c hc => ⟨c, c, [], Grammar.opt_none (h c hc), hc.calm _, hc, rfl⟩

theorem star (h : Loops p a b P) : Eats (.star p) a b P := by
  intro c hc
  obtain ⟨c₁, c₂, ts, hrepeats, hrest⟩ := h c c (hc.calm _) hc
  exact ⟨c₁, c₂, ts, star_of_repeats (hc.calm _) hrepeats, hrest⟩

theorem plus (h : Eats p a b P) (h' : Loops p b d Q) : Eats (.plus p) a d (Joined P Q) :=
  h.seq (star h')

/-- A rule with blanks between its parts leaves one tree. -/
theorem rule (hr : (Rules.body r).spacing = none) (h : Eats (Rules.body r).body a b P) :
    Eats (.rule r) a b (Rooted r P) := by
  have hinside : grammar.inside {} r = {} := by
    show Setting.mk ((Rules.body r).spacing.getD .loose) false false = {}
    rw [hr]
    rfl
  intro c hc
  obtain ⟨c₁, c₂, ts, htakes, hskip, hc₂, hP⟩ := h c hc
  rw [← hinside] at htakes
  exact ⟨c₁, c₂, _, rule_plants rfl htakes, hskip, hc₂, _, _, _, _, rfl, hP⟩

/-- A pattern that takes a token leads to the next one. -/
theorem of_takes {t : String} {ts : List String}
    (h : ∀ {c tail}, c.rest = t.toList ++ tail → Loosened tail →
      ∃ us, Takes grammar {} p c (c.skip t.toList.length) us ∧ P us) : Eats p (t :: ts) ts P := by
  intro c hc
  obtain ⟨-, tail, hrest, htail, c', hskip, hc'⟩ := hc
  obtain ⟨us, htakes, hP⟩ := h hrest htail
  exact ⟨_, c', us, htakes, hskip, hc', hP⟩

theorem lit (t : String) (ts : List String) : Eats (Rules.lit t) (t :: ts) ts Bare :=
  of_takes fun hrest _ => ⟨[], text_takes hrest, rfl⟩

theorem word (t : String) (ts : List String) : Eats (Rules.word t) (t :: ts) ts Bare :=
  of_takes fun hrest _ => ⟨[], word_here hrest, rfl⟩

end Eats

namespace Refuses

theorem seq (h : Refuses p a) : Refuses (.seq p q) a := fun c hc => seq_fails (h c hc)

theorem seq_after (h : Eats p a b P) (h' : Refuses q b) : Refuses (.seq p q) a := by
  intro c hc
  obtain ⟨c₁, c₂, ts, htakes, hskip, hc₂, -⟩ := h c hc
  exact seq_fails_after htakes hskip (h' c₂ hc₂)

theorem any {l : List (Pattern Rule)} (h : ∀ q ∈ l, Refuses q a) : Refuses (.any l) a :=
  fun c hc => any_fails fun q hq => h q hq c hc

theorem rule (hr : (Rules.body r).spacing = none) (h : Refuses (Rules.body r).body a) :
    Refuses (.rule r) a := by
  have hinside : grammar.inside {} r = {} := by
    show Setting.mk ((Rules.body r).spacing.getD .loose) false false = {}
    rw [hr]
    rfl
  intro c hc
  refine rule_fails ?_
  rw [hinside]
  exact h c hc

end Refuses

namespace Loops

theorem imp (h : Loops p a b P) (himp : ∀ ts, P ts → P' ts) : Loops p a b P' := by
  intro c e hskip he
  obtain ⟨c₁, c₂, ts, hrepeats, hskip, hc₂, hP⟩ := h c e hskip he
  exact ⟨c₁, c₂, ts, hrepeats, hskip, hc₂, himp ts hP⟩

theorem stop (h : Refuses p a) : Loops p a a Bare :=
  fun c e hskip he => ⟨c, e, [], repeats_stop hskip (h e he), hskip, he, rfl⟩

theorem more (h : Eats p a b P) (h' : Loops p b d Q) : Loops p a d (Joined P Q) := by
  intro c e hskip he
  obtain ⟨c₁, c₂, ts, htakes, hskip₁, hc₂, hP⟩ := h e he
  obtain ⟨c₃, c₄, us, hrepeats, hskip₂, hc₄, hQ⟩ := h' c₁ c₂ hskip₁ hc₂
  exact ⟨c₃, c₄, ts ++ us, repeats_more hskip htakes hrepeats, hskip₂, hc₄, ts, us, rfl, hP, hQ⟩

end Loops

/-! ## What is refused at a token -/

mutual

/-- Whether the pattern cannot match a token, as far as `n` patterns one inside the other tell.  The
rules in `known` are known not to. -/
def declines (known : Rule → Bool) (t : List Char) : Nat → Pattern Rule → Bool
  | 0, _ => false
  | n + 1, p =>
    match p with
    | .text chars => chars.all (fun ch => !isSpace ch) && !chars.isPrefixOf t
    | .word chars => chars.all isIdentChar && !startsWithWord chars t
    | .char accepts => t.head?.any fun ch => !accepts ch
    | .finish => !t.isEmpty
    | .seq first second => declines known t n first ||
        stays known t n first && declines known t n second
    | .alt first second => declines known t n first && declines known t n second
    | .opt _ | .star _ | .notAhead _ => false
    | .ahead p => declines known t n p
    | .rule r => known r || declines known t n (Rules.body r).body

/-- Whether the pattern takes nothing there even if it matches. -/
def stays (known : Rule → Bool) (t : List Char) : Nat → Pattern Rule → Bool
  | 0, _ => false
  | n + 1, p =>
    match p with
    | .opt p | .star p => declines known t n p
    | .ahead _ | .notAhead _ => true
    | _ => false

end

/-- What the two functions compute is so, by induction on how deep they look. -/
theorem fails_and_stays {known : Rule → Bool} (hcalm : Calm c) (hrest : c.rest = t.toList ++ tail)
    (htail : Loosened tail) (hknown : ∀ r, known r = true → ∀ s, Fails grammar s (.rule r) c) (n : Nat) :
    (∀ {s p}, declines known t.toList n p = true → Fails grammar s p c) ∧
    ∀ {s p q}, stays known t.toList n p = true → Fails grammar s q c → Fails grammar s (.seq p q) c := by
  induction n with
  | zero =>
    constructor
    · intro _ _ h
      cases h
    · intro _ _ _ h
      cases h
  | succ n ih =>
    obtain ⟨hfails, hstays⟩ := ih
    constructor
    · intro s p h
      cases p with
      | text chars =>
        rw [declines, Bool.and_eq_true, Bool.not_eq_true'] at h
        exact text_fails_of_no_start (hrest ▸ isPrefixOf_eq_false htail h)
      | word chars =>
        rw [declines, Bool.and_eq_true, Bool.not_eq_true'] at h
        exact word_fails (hrest ▸ startsWithWord_eq_false htail.delimited.no_ident h.1 h.2)
      | char accepts =>
        simp only [declines, Option.any_eq_true, Bool.not_eq_true'] at h
        obtain ⟨ch, hhead, hch⟩ := h
        refine char_fails fun x hx => ?_
        rw [hrest, List.head?_append, hhead] at hx
        cases hx
        exact hch
      | finish =>
        have hne : c.rest.isEmpty = false := by
          rw [declines, Bool.not_eq_true', List.isEmpty_eq_false_iff] at h
          rw [hrest, List.isEmpty_eq_false_iff]
          exact List.append_ne_nil_of_left_ne_nil h tail
        exact gives_of_forall fun _ _ => by rw [run, hne]; rfl
      | seq first second =>
        rw [declines, Bool.or_eq_true, Bool.and_eq_true] at h
        rcases h with h | ⟨hidle, h⟩
        · exact seq_fails (hfails h)
        · exact hstays hidle (hfails h)
      | alt first second =>
        rw [declines, Bool.and_eq_true] at h
        exact alt_right (hfails h.1) (hfails h.2)
      | opt p => cases h
      | star p => cases h
      | notAhead p => cases h
      | ahead p => exact ahead_fails (hfails (p := p) h)
      | rule r =>
        rw [declines, Bool.or_eq_true] at h
        rcases h with h | h
        · exact hknown r h s
        · exact rule_fails (hfails (p := (Rules.body r).body) h)
    · intro s p q h hq
      cases p with
      | opt p => exact seq_fails_after (opt_none (hfails (p := p) h)) (hcalm s) hq
      | star p => exact seq_fails_after (star_none (hfails (p := p) h)) (hcalm s) hq
      | ahead p => exact seq_fails_behind_probe (.inl ⟨p, rfl⟩) (hcalm s) hq
      | notAhead p => exact seq_fails_behind_probe (.inr ⟨p, rfl⟩) (hcalm s) hq
      | _ => cases h

/-- What cannot match a token does not match where it is left. -/
theorem Refuses.of_declines {ts : List String} (n : Nat)
    (h : declines (fun _ => false) t.toList n p = true) : Refuses p (t :: ts) := by
  rintro c ⟨hcalm, tail, hrest, htail, -⟩
  exact (fails_and_stays hcalm hrest htail (fun _ h => by cases h) n).1 h

end Script

end Lineage
