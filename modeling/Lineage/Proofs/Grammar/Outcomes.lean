/-
  Lineage.Proofs.Grammar.Outcomes

  What patterns come to, without counting fuel.

  `Gives` says what a pattern comes to with every amount of fuel from some amount on,
  whatever has failed before.  There are one or two lemmas for each kind of pattern, for
  where it takes a part of the text (`Takes`) and for where it does not match (`Fails`).

  Most alternatives are ruled out by the next character alone.  Whether that is so can be
  computed (`refuses`).
-/
import Mathlib.Order.Filter.AtTopBot.Basic
import Lineage.Proofs.Grammar.Fuel

namespace Lineage

namespace Cursor

theorem skip_add (m n : Nat) (c : Cursor) : (c.skip m).skip n = c.skip (m + n) := by
  induction m generalizing c with
  | zero => rw [Nat.zero_add]; rfl
  | succ m ih => rw [Nat.succ_add, skip, skip, ih]

theorem rest_skip_append {c : Cursor} {front tail : List Char} (h : c.rest = front ++ tail) :
    (c.skip front.length).rest = tail := by
  rw [rest_skip, h, List.drop_left]

theorem skip_append (c : Cursor) (front back : List Char) :
    c.skip (front ++ back).length = (c.skip front.length).skip back.length := by
  rw [List.length_append, skip_add]

theorem offset_skip {n : Nat} {c : Cursor} (h : n ≤ c.rest.length) :
    (c.skip n).offset = c.offset + n := by
  induction n generalizing c with
  | zero => rfl
  | succ n ih =>
    have hadvance : c.advance.offset = c.offset + 1 := by
      unfold advance
      split
      · rename_i hrest
        rw [hrest] at h
        cases h
      · rfl
      · rfl
    rw [skip, ih, hadvance, Nat.add_right_comm, Nat.add_assoc]
    rw [rest_advance, List.length_drop]
    omega

/-- The text between a cursor and one behind a front part of what is left is that part. -/
theorem take_offset_skip {c : Cursor} {front tail : List Char} (h : c.rest = front ++ tail) :
    c.rest.take ((c.skip front.length).offset - c.offset) = front := by
  have hle : front.length ≤ c.rest.length := by
    rw [h, List.length_append]
    omega
  rw [offset_skip hle, Nat.add_sub_cancel_left, h, List.take_left]

end Cursor

namespace Grammar

open Filter

variable {ρ : Type} {g : Grammar ρ} {s : Setting} {p q : Pattern ρ} {c c₁ c₂ c₃ : Cursor}
  {ts us : List (Tree ρ)}

/-! ## Outcomes -/

/-- What a pattern comes to with enough fuel, whatever has failed before. -/
def Gives (g : Grammar ρ) (s : Setting) (p : Pattern ρ) (c : Cursor) (r : Option (Match ρ)) :
    Prop :=
  ∀ᶠ fuel in atTop, ∀ f, (g.run fuel s p c f).2 = r

/-- The pattern does not match. -/
abbrev Fails (g : Grammar ρ) (s : Setting) (p : Pattern ρ) (c : Cursor) : Prop :=
  Gives g s p c none

/-- The pattern takes the text up to another cursor and leaves trees. -/
abbrev Takes (g : Grammar ρ) (s : Setting) (p : Pattern ρ) (c c' : Cursor) (ts : List (Tree ρ)) :
    Prop :=
  Gives g s p c (some (c', ts))

/-- Where blanks are skipped, skipping them leads from one cursor to another. -/
def Skips (g : Grammar ρ) (s : Setting) (c c' : Cursor) : Prop :=
  ∀ᶠ fuel in atTop, g.blanks fuel s c = c'

/-- Repeating the pattern after what came before takes the text up to another cursor. -/
def Repeats (g : Grammar ρ) (s : Setting) (p : Pattern ρ) (c c' : Cursor) (ts : List (Tree ρ)) :
    Prop :=
  ∀ᶠ fuel in atTop, ∀ f done, (g.loop fuel s p c f done).2 = (c', ts.reverse ++ done)

/-- What holds with one more than every large enough amount holds with every large enough amount. -/
theorem eventually_of_succ {P : Nat → Prop} (h : ∀ᶠ n in atTop, P (n + 1)) : ∀ᶠ n in atTop, P n := by
  rwa [← map_add_atTop_eq_nat 1, eventually_map]

theorem gives_of_succ {r : Option (Match ρ)}
    (h : ∀ᶠ fuel in atTop, ∀ f, (g.run (fuel + 1) s p c f).2 = r) : Gives g s p c r :=
  eventually_of_succ h

theorem gives_of_forall {r : Option (Match ρ)} (h : ∀ fuel f, (g.run (fuel + 1) s p c f).2 = r) :
    Gives g s p c r :=
  gives_of_succ (.of_forall h)

/-! ## Characters -/

theorem text_takes {chars tail : List Char} (h : c.rest = chars ++ tail) :
    Takes g s (.text chars) c (c.skip chars.length) [] :=
  gives_of_forall fun _ _ => by
    rw [run, if_pos (by rw [h]; exact List.isPrefixOf_iff_prefix.mpr (List.prefix_append _ _))]
    rfl

theorem text_fails {a : Char} {chars : List Char} (h : c.rest.head? ≠ some a) :
    Fails g s (.text (a :: chars)) c :=
  gives_of_forall fun _ _ => by
    cases hrest : c.rest with
    | nil => rw [run, hrest]; rfl
    | cons b rest =>
      rw [hrest, List.head?_cons, ne_eq, Option.some.injEq] at h
      rw [run, hrest, List.isPrefixOf, beq_false_of_ne (Ne.symm h)]
      rfl

theorem word_takes {chars : List Char} (h : startsWithWord chars c.rest = true) :
    Takes g s (.word chars) c (c.skip chars.length) [] :=
  gives_of_forall fun _ _ => by rw [run, if_pos h]; rfl

theorem word_fails {chars : List Char} (h : startsWithWord chars c.rest = false) :
    Fails g s (.word chars) c :=
  gives_of_forall fun _ _ => by rw [run, h]; rfl

theorem char_takes {accepts : Char → Bool} {ch : Char} {tail : List Char} (h : c.rest = ch :: tail)
    (hch : accepts ch = true) : Takes g s (.char accepts) c (c.skip 1) [] :=
  gives_of_forall fun _ _ => by simp only [run, h, hch]; rfl

theorem char_fails {accepts : Char → Bool} (h : ∀ ch, c.rest.head? = some ch → accepts ch = false) :
    Fails g s (.char accepts) c :=
  gives_of_forall fun _ _ => by
    rw [run]
    split
    · rename_i hrest
      rw [h _ (by rw [hrest]; rfl)]
      rfl
    · rfl

theorem finish_takes (h : c.rest = []) : Takes g s .finish c c [] :=
  gives_of_forall fun _ _ => by rw [run, h]; rfl

/-! ## Sequences and alternatives -/

theorem seq_takes (h : Takes g s p c c₁ ts) (hskip : Skips g s c₁ c₂) (h' : Takes g s q c₂ c₃ us) :
    Takes g s (.seq p q) c c₃ (ts ++ us) := by
  refine gives_of_succ ?_
  filter_upwards [h, hskip, h'] with fuel e eskip e' f
  have e := e f
  rw [run]
  split
  · rename_i heq
    rw [heq] at e
    cases e
  · rename_i heq
    rw [heq] at e
    cases e
    have e' := e' ‹_›
    rw [eskip]
    split
    · rename_i heq
      rw [heq] at e'
      cases e'
    · rename_i heq
      rw [heq] at e'
      cases e'
      rfl

theorem seq_fails (h : Fails g s p c) : Fails g s (.seq p q) c := by
  refine gives_of_succ ?_
  filter_upwards [h] with fuel e f
  have e := e f
  rw [run]
  split
  · rfl
  · rename_i heq
    rw [heq] at e
    cases e

theorem seq_fails_after (h : Takes g s p c c₁ ts) (hskip : Skips g s c₁ c₂) (h' : Fails g s q c₂) :
    Fails g s (.seq p q) c := by
  refine gives_of_succ ?_
  filter_upwards [h, hskip, h'] with fuel e eskip e' f
  have e := e f
  rw [run]
  split
  · rfl
  · rename_i heq
    rw [heq] at e
    cases e
    have e' := e' ‹_›
    rw [eskip]
    split
    · rfl
    · rename_i heq
      rw [heq] at e'
      cases e'

theorem alt_left (h : Takes g s p c c₁ ts) : Takes g s (.alt p q) c c₁ ts := by
  refine gives_of_succ ?_
  filter_upwards [h] with fuel e f
  have e := e f
  rw [run]
  split
  · rename_i heq
    rw [heq] at e
    cases e
  · exact e

theorem alt_right {r : Option (Match ρ)} (h : Fails g s p c) (h' : Gives g s q c r) :
    Gives g s (.alt p q) c r := by
  refine gives_of_succ ?_
  filter_upwards [h, h'] with fuel e e' f
  have e := e f
  rw [run]
  split
  · exact e' _
  · rename_i hne
    rcases hrun : g.run fuel s p c f with ⟨f₁, _ | _⟩
    · exact (hne f₁ hrun).elim
    · rw [hrun] at e
      cases e

theorem any_cons {l : List (Pattern ρ)} (h : l ≠ []) : Pattern.any (p :: l) = .alt p (.any l) := by
  cases l with
  | nil => exact (h rfl).elim
  | cons => rfl

/-- Of alternatives, the first one that matches. -/
theorem any_takes {l : List (Pattern ρ)} (i : Nat) (hp : l[i]? = some p)
    (hbefore : ∀ q ∈ l.take i, Fails g s q c) (h : Takes g s p c c₁ ts) :
    Takes g s (.any l) c c₁ ts := by
  induction i generalizing l with
  | zero =>
    cases l with
    | nil => cases hp
    | cons q l =>
      cases hp
      cases l with
      | nil => exact h
      | cons => exact alt_left h
  | succ i ih =>
    cases l with
    | nil => cases hp
    | cons q l =>
      rw [List.getElem?_cons_succ] at hp
      have hl : l ≠ [] := by
        rintro rfl
        cases hp
      rw [any_cons hl]
      exact alt_right (hbefore q List.mem_cons_self)
        (ih hp fun q hq => hbefore q (List.mem_cons_of_mem _ hq))

theorem any_fails {l : List (Pattern ρ)} (h : ∀ q ∈ l, Fails g s q c) : Fails g s (.any l) c := by
  induction l with
  | nil => exact gives_of_succ (eventually_of_succ (.of_forall fun fuel f => by
      simp only [Pattern.any, run]
      rfl))
  | cons q l ih =>
    cases l with
    | nil => exact h q List.mem_cons_self
    | cons q' l =>
      exact alt_right (h q List.mem_cons_self) (ih fun q hq => h q (List.mem_cons_of_mem _ hq))

/-! ## Repetition -/

theorem opt_takes (h : Takes g s p c c₁ ts) : Takes g s (.opt p) c c₁ ts := by
  refine gives_of_succ ?_
  filter_upwards [h] with fuel e f
  have e := e f
  rw [run]
  split
  · rename_i heq
    rw [heq] at e
    cases e
  · exact e

theorem opt_none (h : Fails g s p c) : Takes g s (.opt p) c c [] := by
  refine gives_of_succ ?_
  filter_upwards [h] with fuel e f
  have e := e f
  rw [run]
  split
  · rfl
  · rename_i hne
    rcases hrun : g.run fuel s p c f with ⟨f₁, _ | _⟩
    · exact (hne f₁ hrun).elim
    · rw [hrun] at e
      cases e

theorem repeats_stop (hskip : Skips g s c c₁) (h : Fails g s p c₁) : Repeats g s p c c [] := by
  refine eventually_of_succ ?_
  filter_upwards [hskip, h] with fuel eskip e f done
  have e := e f
  rw [loop, eskip]
  split
  · rfl
  · rename_i heq
    rw [heq] at e
    cases e

theorem repeats_more (hskip : Skips g s c c₁) (h : Takes g s p c₁ c₂ ts)
    (hmore : Repeats g s p c₂ c₃ us) : Repeats g s p c c₃ (ts ++ us) := by
  refine eventually_of_succ ?_
  filter_upwards [hskip, h, hmore] with fuel eskip e emore f done
  have e := e f
  rw [loop, eskip]
  split
  · rename_i heq
    rw [heq] at e
    cases e
  · rename_i heq
    rw [heq] at e
    cases e
    rw [emore]
    simp

/-- Where nothing leaves trees. -/
theorem repeats_bare (hskip : Skips g s c c₁) (h : Takes g s p c₁ c₂ [])
    (hmore : Repeats g s p c₂ c₃ []) :
    Repeats g s p c c₃ [] :=
  repeats_more hskip h hmore

theorem star_none (h : Fails g s p c) : Takes g s (.star p) c c [] := by
  refine gives_of_succ ?_
  filter_upwards [h] with fuel e f
  have e := e f
  rw [run]
  split
  · rfl
  · rename_i heq
    rw [heq] at e
    cases e

theorem star_takes (h : Takes g s p c c₁ ts) (hmore : Repeats g s p c₁ c₂ us) :
    Takes g s (.star p) c c₂ (ts ++ us) := by
  refine gives_of_succ ?_
  filter_upwards [h, hmore] with fuel e emore f
  have e := e f
  rw [run]
  split
  · rename_i heq
    rw [heq] at e
    cases e
  · rename_i f₁ _ _ heq
    rw [heq] at e
    cases e
    have emore := emore f₁ ts.reverse
    simp only [emore, List.reverse_append, List.reverse_reverse]

/-- Where no blanks come first, to begin a repetition is to go on with it. -/
theorem star_of_repeats (hskip : Skips g s c c) (h : Repeats g s p c c₁ ts) :
    Takes g s (.star p) c c₁ ts := by
  refine gives_of_succ ?_
  filter_upwards [hskip, (tendsto_add_atTop_nat 1).eventually h] with fuel eskip e f
  have e := e f []
  rw [loop, eskip] at e
  rw [run]
  generalize g.run fuel s p c f = r at e
  rcases r with ⟨f₁, _ | ⟨c₂, us⟩⟩
  · obtain ⟨rfl, hts⟩ := Prod.mk.inj e
    rw [List.append_nil, ← List.reverse_nil, List.reverse_inj] at hts
    rw [← hts]
    rfl
  · simp only [List.append_nil] at e
    simp only [e, List.reverse_reverse]

/-! ## Blanks -/

theorem skips_of_not_loose (hs : s.spacing ≠ .loose) : Skips g s c c :=
  .of_forall fun fuel => blanks_of_not_loose hs fuel c

theorem skips_of_repeats (hs : s.spacing = .loose)
    (h : Repeats g { spacing := .sealed } g.blank c c₁ ts) : Skips g s c c₁ := by
  refine eventually_of_succ ?_
  filter_upwards [h] with fuel e
  rw [blanks, if_pos hs, e {} []]

/-! ## Runs of characters -/

section

variable {accepts : Char → Bool} {front tail : List Char}

/-- Where no blanks are skipped, a class of characters repeats up to the first one outside of it. -/
theorem repeats_chars (hs : s.spacing ≠ .loose) (hrest : c.rest = front ++ tail)
    (hfront : ∀ ch ∈ front, accepts ch = true)
    (htail : ∀ ch, tail.head? = some ch → accepts ch = false) :
    Repeats g s (.char accepts) c (c.skip front.length) [] := by
  induction front generalizing c with
  | nil => exact repeats_stop (skips_of_not_loose hs) (char_fails (by rwa [hrest]))
  | cons ch front ih =>
    refine repeats_bare (skips_of_not_loose hs)
      (char_takes hrest (hfront ch List.mem_cons_self)) ?_
    rw [List.length_cons, Nat.add_comm, ← Cursor.skip_add]
    exact ih (by rw [Cursor.rest_skip, hrest]; rfl)
      fun ch hch => hfront ch (List.mem_cons_of_mem _ hch)

theorem star_chars (hs : s.spacing ≠ .loose) (hrest : c.rest = front ++ tail)
    (hfront : ∀ ch ∈ front, accepts ch = true)
    (htail : ∀ ch, tail.head? = some ch → accepts ch = false) :
    Takes g s (.star (.char accepts)) c (c.skip front.length) [] :=
  star_of_repeats (skips_of_not_loose hs) (repeats_chars hs hrest hfront htail)

theorem plus_chars (hs : s.spacing ≠ .loose) (hrest : c.rest = front ++ tail) (hne : front ≠ [])
    (hfront : ∀ ch ∈ front, accepts ch = true)
    (htail : ∀ ch, tail.head? = some ch → accepts ch = false) :
    Takes g s (.plus (.char accepts)) c (c.skip front.length) [] := by
  obtain ⟨ch, front, rfl⟩ := List.exists_cons_of_ne_nil hne
  have hstar : Takes g s (.star (.char accepts)) (c.skip 1) ((c.skip 1).skip front.length) [] :=
    star_chars hs (by rw [Cursor.rest_skip, hrest]; rfl)
      (fun ch hch => hfront ch (List.mem_cons_of_mem _ hch)) htail
  rw [Cursor.skip_add, Nat.add_comm] at hstar
  exact seq_takes (char_takes hrest (hfront ch List.mem_cons_self)) (skips_of_not_loose hs) hstar

end

/-! ## Look-aheads and rules -/

theorem ahead_takes (h : Takes g { s with probing := true } p c c₁ ts) :
    Takes g s (.ahead p) c c [] := by
  refine gives_of_succ ?_
  filter_upwards [h] with fuel e f
  have e := e f
  rw [run]
  split
  · rename_i heq
    rw [heq] at e
    cases e
  · rfl

theorem notAhead_takes (h : Fails g { s with probing := true, negated := true } p c) :
    Takes g s (.notAhead p) c c [] := by
  refine gives_of_succ ?_
  filter_upwards [h] with fuel e f
  have e := e f
  rw [run]
  split
  · rfl
  · rename_i heq
    rw [heq] at e
    cases e

theorem notAhead_fails (h : Takes g { s with probing := true, negated := true } p c c₁ ts) :
    Fails g s (.notAhead p) c := by
  refine gives_of_succ ?_
  filter_upwards [h] with fuel e f
  have e := e f
  rw [run]
  split
  · rename_i heq
    rw [heq] at e
    cases e
  · rfl

/-- The setting inside a rule. -/
def inside (g : Grammar ρ) (s : Setting) (r : ρ) : Setting :=
  { s with spacing := (if s.spacing = .sealed then .sealed else (g.rule r).spacing.getD s.spacing) }

theorem rule_fails {r : ρ} (h : Fails g (g.inside s r) (g.rule r).body c) :
    Fails g s (.rule r) c := by
  refine gives_of_succ ?_
  filter_upwards [h] with fuel e f
  have e := e f
  rw [inside] at e
  rw [run]
  dsimp only
  split
  · rfl
  · rename_i heq
    rw [heq] at e
    cases e

/-- A rule leaves a tree with the text between the cursors. -/
theorem rule_plants {r : ρ} (hs : s.plants = true)
    (h : Takes g (g.inside s r) (g.rule r).body c c₁ ts) :
    Takes g s (.rule r) c c₁ [.node r c.line c.column (c.rest.take (c₁.offset - c.offset)) ts] := by
  refine gives_of_succ ?_
  filter_upwards [h] with fuel e f
  have e := e f
  rw [inside] at e
  rw [run]
  dsimp only
  split
  · rename_i heq
    rw [heq] at e
    cases e
  · rename_i heq
    rw [heq] at e
    cases e
    rw [if_pos hs]

/-- A rule that takes a part of the text leaves a tree with that part. -/
theorem rule_takes {r : ρ} {front tail : List Char} (hs : s.plants = true)
    (hrest : c.rest = front ++ tail)
    (h : Takes g (g.inside s r) (g.rule r).body c (c.skip front.length) ts) :
    Takes g s (.rule r) c (c.skip front.length) [.node r c.line c.column front ts] := by
  have htakes := rule_plants hs h
  rwa [Cursor.take_offset_skip hrest] at htakes

/-- A rule in a look-ahead leaves no tree of its own. -/
theorem rule_takes_unplanted {r : ρ} (hs : s.plants = false)
    (h : Takes g (g.inside s r) (g.rule r).body c c₁ ts) : Takes g s (.rule r) c c₁ ts := by
  refine gives_of_succ ?_
  filter_upwards [h] with fuel e f
  have e := e f
  rw [inside] at e
  rw [run]
  dsimp only
  split
  · rename_i heq
    rw [heq] at e
    cases e
  · rename_i heq
    rw [heq] at e
    cases e
    rw [hs]
    rfl

/-! ## The next character -/

mutual

/-- Whether the pattern cannot match where `x` comes next, nothing being the end of the text, as far
as `n` patterns one inside the other tell.  `still` says that there are no blanks there. -/
def refuses (g : Grammar ρ) (still : Bool) (x : Option Char) : Nat → Pattern ρ → Bool
  | 0, _ => false
  | n + 1, p =>
    match p with
    | .text chars =>
      match chars with
      | [] => false
      | a :: _ => x != some a
    | .word chars =>
      match chars with
      | [] => false
      | a :: _ => !x.any (sameLetter a)
    | .char accepts => !x.any accepts
    | .finish => x.isSome
    | .seq first second => refuses g still x n first ||
        still && idles g still x n first && refuses g still x n second
    | .alt first second => refuses g still x n first && refuses g still x n second
    | .opt _ | .star _ | .notAhead _ => false
    | .ahead p => refuses g still x n p
    | .rule r => refuses g still x n (g.rule r).body

/-- Whether the pattern takes nothing there even if it matches. -/
def idles (g : Grammar ρ) (still : Bool) (x : Option Char) : Nat → Pattern ρ → Bool
  | 0, _ => false
  | n + 1, p =>
    match p with
    | .text chars => chars.isEmpty
    | .opt p | .star p => refuses g still x n p
    | .ahead _ | .notAhead _ => true
    | _ => false

end

/-- Whether the pattern cannot match where one of the characters comes next. -/
def refusesEach (g : Grammar ρ) (still : Bool) (chars : List Char) (n : Nat) (p : Pattern ρ) : Bool :=
  chars.all fun ch => refuses g still (some ch) n p

theorem refuses_of_each {still : Bool} {chars : List Char} {n : Nat} {ch : Char}
    (h : refusesEach g still chars n p = true) (hch : ch ∈ chars) :
    refuses g still (some ch) n p = true :=
  List.all_eq_true.mp h ch hch

/-- No blanks are skipped at a cursor. -/
def Still (g : Grammar ρ) (c : Cursor) : Prop := ∀ fuel s, g.blanks fuel s c = c

theorem refuses_and_idles {still : Bool} (hstill : still = true → Still g c) (n : Nat) :
    (∀ {p}, refuses g still c.rest.head? n p = true → ∀ fuel s f, (g.run fuel s p c f).2 = none) ∧
    ∀ {p}, idles g still c.rest.head? n p = true →
      ∀ {fuel s f f' c' ts}, g.run fuel s p c f = (f', some (c', ts)) → c' = c := by
  induction n with
  | zero =>
    constructor
    · intro _ h
      cases h
    · intro _ h
      cases h
  | succ n ih =>
    obtain ⟨hrefuses, hidles⟩ := ih
    constructor
    · intro p h fuel s f
      cases fuel with
      | zero => rfl
      | succ fuel =>
        cases p with
        | text chars =>
          cases chars with
          | nil => cases h
          | cons a chars =>
            have hne : (a :: chars).isPrefixOf c.rest = false := by
              cases hrest : c.rest with
              | nil => rfl
              | cons b rest =>
                rw [hrest] at h
                simp only [refuses, List.head?_cons, bne_iff_ne, ne_eq, Option.some.injEq] at h
                simp [List.isPrefixOf, Ne.symm h]
            rw [run, hne]
            rfl
        | word chars =>
          cases chars with
          | nil => cases h
          | cons a chars =>
            have hne : startsWithWord (a :: chars) c.rest = false := by
              cases hrest : c.rest with
              | nil => rfl
              | cons b rest =>
                rw [hrest] at h
                simp only [refuses, List.head?_cons, Option.any_some, Bool.not_eq_true'] at h
                simp [startsWithWord, h]
            rw [run, hne]
            rfl
        | char accepts =>
          simp only [run]
          split
          · rename_i hrest
            rw [hrest] at h
            simp only [refuses, List.head?_cons, Option.any_some, Bool.not_eq_true'] at h
            rw [h]
            rfl
          · rfl
        | finish =>
          have hne : c.rest.isEmpty = false := by
            cases hrest : c.rest with
            | nil => rw [hrest] at h; cases h
            | cons => rfl
          rw [run, hne]
          rfl
        | seq first second =>
          simp only [refuses, Bool.or_eq_true, Bool.and_eq_true] at h
          rw [run]
          rcases hrun : g.run fuel s first c f with ⟨f₁, _ | ⟨c₁, ts⟩⟩
          · rfl
          · rcases h with h | ⟨⟨hs, hidle⟩, h⟩
            · have := hrefuses h fuel s f
              rw [hrun] at this
              cases this
            · obtain rfl := hidles hidle hrun
              dsimp only
              rw [hstill hs]
              have hsecond := hrefuses h fuel s f₁
              split
              · rfl
              · rename_i heq
                rw [heq] at hsecond
                cases hsecond
        | alt first second =>
          simp only [refuses, Bool.and_eq_true] at h
          rw [run]
          rcases hrun : g.run fuel s first c f with ⟨f₁, _ | _⟩
          · exact hrefuses h.2 fuel s f₁
          · have := hrefuses h.1 fuel s f
            rw [hrun] at this
            cases this
        | opt p => cases h
        | star p => cases h
        | notAhead p => cases h
        | ahead p =>
          have hp := hrefuses (p := p) h fuel { s with probing := true } f
          rw [run]
          split
          · rfl
          · rename_i heq
            rw [heq] at hp
            cases hp
        | rule r =>
          have hbody := hrefuses (p := (g.rule r).body) h fuel (g.inside s r) f
          rw [inside] at hbody
          rw [run]
          dsimp only
          split
          · rfl
          · rename_i heq
            rw [heq] at hbody
            cases hbody
    · intro p h fuel s f f' c' ts hrun
      cases fuel with
      | zero => cases hrun
      | succ fuel =>
        cases p with
        | text chars =>
          cases chars with
          | nil => cases hrun; rfl
          | cons => cases h
        | opt p =>
          have hp := hrefuses (p := p) h fuel s f
          rw [run] at hrun
          split at hrun
          · cases hrun
            rfl
          · rw [hrun] at hp
            cases hp
        | star p =>
          have hp := hrefuses (p := p) h fuel s f
          rw [run] at hrun
          split at hrun
          · cases hrun
            rfl
          · rename_i heq
            rw [heq] at hp
            cases hp
        | ahead p =>
          rw [run] at hrun
          split at hrun
          · cases hrun
          · cases hrun
            rfl
        | notAhead p =>
          rw [run] at hrun
          split at hrun
          · cases hrun
            rfl
          · cases hrun
        | _ => cases h

/-- What is refused at the next character fails. -/
theorem fails_of_refuses (hstill : Still g c) {x : Option Char} (hx : c.rest.head? = x) (n : Nat)
    (h : refuses g true x n p = true) : Fails g s p c := by
  subst hx
  exact .of_forall fun fuel f => (refuses_and_idles (fun _ => hstill) n).1 h fuel s f

/-- There are no blanks where the next character begins none. -/
theorem still_of_refuses {x : Option Char} (hx : c.rest.head? = x) (n : Nat)
    (h : refuses g false x n g.blank = true) : Still g c := by
  subst hx
  intro fuel s
  have hrun := (refuses_and_idles (fun h => by cases h) n).1 h
  cases fuel with
  | zero => rfl
  | succ fuel =>
    rw [blanks]
    split
    · cases fuel with
      | zero => rfl
      | succ fuel =>
        have hblank := hrun fuel { spacing := .sealed } {}
        rw [loop, blanks_of_not_loose (by decide)]
        split
        · rfl
        · rename_i heq
          rw [heq] at hblank
          cases hblank
    · rfl

/-- There is no blank where the next character begins none. -/
theorem blank_fails {x : Option Char} (hx : c.rest.head? = x) (n : Nat)
    (h : refuses g false x n g.blank = true) : Fails g s g.blank c := by
  subst hx
  exact .of_forall fun fuel f => (refuses_and_idles (fun h => by cases h) n).1 h fuel s f

theorem Still.skips (h : Still g c) : Skips g s c c := .of_forall fun fuel => h fuel s

end Grammar

end Lineage
