/-
  Lineage.Proofs.Grammar.Fuel

  The fuel of the matcher lasts.

  Between two characters that are consumed the matcher goes down a chain of patterns, and
  a grammar in which no rule comes back to itself on such a chain bounds its length
  (`Measure`, `Orderly`).  So `k` calls for each character that is left and the depth of
  the pattern are enough: with more fuel the matcher comes to the same
  (`run_steady`).
-/
import Mathlib.Algebra.Order.Group.Nat
import Lineage.Grammar.Matching

namespace Lineage

/-! ## Cursors -/

namespace Cursor

theorem rest_advance (c : Cursor) : c.advance.rest = c.rest.drop 1 := by
  obtain ⟨o, l, col, rest⟩ := c
  unfold advance
  split <;> simp_all

theorem rest_skip (n : Nat) (c : Cursor) : (c.skip n).rest = c.rest.drop n := by
  induction n generalizing c with
  | zero => rfl
  | succ n ih => rw [skip, ih, rest_advance, List.drop_drop, Nat.add_comm]

end Cursor

/-! ## The depth of patterns -/

/-- What is said of the rules of a grammar: which ones may match without consuming, and how many
calls one inside the other a rule makes at most before it has consumed something. -/
structure Measure (ρ : Type) where
  empty : ρ → Bool
  depth : ρ → Nat
  /-- How many calls the skipping of blanks makes. -/
  blanks : Nat
  /-- No depth is larger. -/
  bound : Nat

namespace Pattern

variable {ρ : Type} (m : Measure ρ)

/-- Whether the pattern may match without consuming. -/
def nullable : Pattern ρ → Bool
  | .text chars | .word chars => chars.isEmpty
  | .char _ => false
  | .finish | .opt _ | .star _ | .ahead _ | .notAhead _ => true
  | .seq first second => first.nullable && second.nullable
  | .alt first second => first.nullable || second.nullable
  | .rule r => m.empty r

/-- How many calls one inside the other the pattern makes before it has consumed something. -/
def depth : Pattern ρ → Nat
  | .text _ | .word _ | .char _ | .finish => 1
  | .seq first second =>
    max first.depth (if first.nullable m then max m.blanks second.depth else 0) + 1
  | .alt first second => max first.depth second.depth + 1
  | .opt p | .star p | .ahead p | .notAhead p => p.depth + 1
  | .rule r => m.depth r + 1

/-- What comes after something consumed is not too deep, and what is repeated consumes. -/
def orderly : Pattern ρ → Bool
  | .text _ | .word _ | .char _ | .finish | .rule _ => true
  | .seq first second => first.orderly && second.orderly && second.depth m ≤ m.bound
  | .alt first second => first.orderly && second.orderly
  | .opt p | .ahead p | .notAhead p => p.orderly
  | .star p => p.orderly && !p.nullable m && p.depth m ≤ m.bound

theorem depth_pos (p : Pattern ρ) : 0 < p.depth m := by
  cases p <;> simp only [depth] <;> omega

end Pattern

/-- The grammar is as the measure says. -/
structure Grammar.Orderly {ρ : Type} (g : Grammar ρ) (m : Measure ρ) : Prop where
  empty : ∀ r, (g.rule r).body.nullable m = true → m.empty r = true
  depth : ∀ r, (g.rule r).body.depth m ≤ m.depth r
  orderly : ∀ r, (g.rule r).body.orderly m = true
  blank : g.blank.orderly m = true ∧ g.blank.nullable m = false ∧ g.blank.depth m + 2 ≤ m.blanks
  blanks : m.blanks ≤ m.bound

namespace Grammar

variable {ρ : Type} {g : Grammar ρ} {m : Measure ρ}

/-! ## What is consumed -/

theorem length_le_of_startsWithWord {word text : List Char} (h : startsWithWord word text = true) :
    word.length ≤ text.length := by
  induction word generalizing text with
  | nil => exact Nat.zero_le _
  | cons a word ih =>
    cases text with
    | nil => cases h
    | cons b text =>
      rw [startsWithWord, Bool.and_eq_true] at h
      exact Nat.succ_le_succ (ih h.2)

/-- A cursor is not before another, and is after it unless the pattern may match without consuming. -/
def Advances (m : Measure ρ) (p : Pattern ρ) (c c' : Cursor) : Prop :=
  c'.rest.length ≤ c.rest.length ∧ (p.nullable m = false → c'.rest.length < c.rest.length)

theorem Advances.skip {p : Pattern ρ} {chars : List Char} {c : Cursor}
    (hp : p.nullable m = chars.isEmpty) (h : chars.length ≤ c.rest.length) :
    Advances m p c (c.skip chars.length) := by
  rw [Advances, hp, Cursor.rest_skip, List.length_drop]
  refine ⟨Nat.sub_le _ _, fun hne => ?_⟩
  have := List.length_pos_iff.mpr (List.isEmpty_eq_false_iff.mp hne)
  omega

theorem Advances.of_le {p : Pattern ρ} {c c' : Cursor} (hp : p.nullable m = true)
    (h : c'.rest.length ≤ c.rest.length) : Advances m p c c' :=
  ⟨h, fun hn => by rw [hp] at hn; cases hn⟩

/-- A pattern that matches goes on in the text. -/
theorem run_advances (hg : g.Orderly m) (fuel : Nat) :
    (∀ {s p c f f' c' ts}, g.run fuel s p c f = (f', some (c', ts)) → Advances m p c c') ∧
    (∀ s p c f done, (g.loop fuel s p c f done).2.1.rest.length ≤ c.rest.length) ∧
    ∀ s c, (g.blanks fuel s c).rest.length ≤ c.rest.length := by
  induction fuel with
  | zero => simp [run_zero, loop, blanks]
  | succ fuel ih =>
    obtain ⟨hrun, hloop, hblanks⟩ := ih
    refine ⟨?_, ?_, ?_⟩
    · intro s p c f f' c' ts h
      cases p with
      | text chars =>
        simp only [run, Prod.mk.injEq, Option.ite_none_right_eq_some, Option.some.injEq] at h
        obtain ⟨-, hprefix, h⟩ := h
        cases h
        exact .skip rfl (List.isPrefixOf_iff_prefix.mp hprefix).length_le
      | word chars =>
        simp only [run, Prod.mk.injEq, Option.ite_none_right_eq_some, Option.some.injEq] at h
        obtain ⟨-, hword, h⟩ := h
        cases h
        exact .skip rfl (length_le_of_startsWithWord hword)
      | char accepts =>
        simp only [run] at h
        split at h
        · rename_i ch rest hrest
          simp only [Prod.mk.injEq, Option.ite_none_right_eq_some, Option.some.injEq] at h
          obtain ⟨-, -, h⟩ := h
          cases h
          simp [Advances, Cursor.rest_advance, hrest]
        · cases h
      | finish =>
        simp only [run, Prod.mk.injEq, Option.ite_none_right_eq_some, Option.some.injEq] at h
        obtain ⟨-, -, h⟩ := h
        cases h
        exact .of_le rfl (Nat.le_refl _)
      | seq first second =>
        simp only [run] at h
        split at h
        · cases h
        · rename_i c₁ _ hfirst
          split at h
          · cases h
          · rename_i hsecond
            cases h
            have hb := hblanks s c₁
            obtain ⟨hle₁, hlt₁⟩ := hrun hfirst
            obtain ⟨hle₂, hlt₂⟩ := hrun hsecond
            refine ⟨by omega, fun hn => ?_⟩
            rcases Bool.and_eq_false_iff.mp hn with hn | hn
            · have := hlt₁ hn
              omega
            · have := hlt₂ hn
              omega
      | alt first second =>
        simp only [run] at h
        split at h
        · obtain ⟨hle, hlt⟩ := hrun h
          exact ⟨hle, fun hn => hlt (Bool.or_eq_false_iff.mp hn).2⟩
        · obtain ⟨hle, hlt⟩ := hrun h
          exact ⟨hle, fun hn => hlt (Bool.or_eq_false_iff.mp hn).1⟩
      | opt p =>
        simp only [run] at h
        split at h
        · cases h
          exact .of_le rfl (Nat.le_refl _)
        · exact .of_le rfl (hrun h).1
      | star p =>
        simp only [run] at h
        split at h
        · cases h
          exact .of_le rfl (Nat.le_refl _)
        · rename_i f₁ c₁ trees hp
          cases h
          exact .of_le rfl ((hloop s p c₁ f₁ trees.reverse).trans (hrun hp).1)
      | ahead p =>
        simp only [run] at h
        split at h
        · cases h
        · cases h
          exact .of_le rfl (Nat.le_refl _)
      | notAhead p =>
        simp only [run] at h
        split at h
        · cases h
          exact .of_le rfl (Nat.le_refl _)
        · cases h
      | rule r =>
        simp only [run] at h
        split at h
        · split at h <;> cases h
        · rename_i hbody
          obtain ⟨hle, hlt⟩ := hrun hbody
          have hrule (hn : m.empty r = false) : (g.rule r).body.nullable m = false :=
            Bool.eq_false_iff.mpr fun hnull => Bool.eq_false_iff.mp hn (hg.empty r hnull)
          split at h
          · cases h
            exact ⟨hle, fun hn => hlt (hrule hn)⟩
          · cases h
            exact ⟨hle, fun hn => hlt (hrule hn)⟩
    · intro s p c f done
      rw [loop]
      split
      · exact Nat.le_refl _
      · rename_i hp
        have hb := hblanks s c
        exact (hloop _ _ _ _ _).trans ((hrun hp).1.trans hb)
    · intro s c
      rw [blanks]
      split
      · exact hloop _ _ _ _ _
      · exact Nat.le_refl _

/-! ## Enough fuel -/

/-- What is enough for a pattern that goes `depth` calls deep at a cursor. -/
def enough (m : Measure ρ) (depth : Nat) (c : Cursor) : Nat :=
  m.bound * c.rest.length + depth

/-- One character more is worth all the calls until the next one is consumed. -/
theorem enough_le {depth depth' : Nat} {c c' : Cursor}
    (h : c'.rest.length < c.rest.length ∧ depth' ≤ m.bound + depth ∨
      c'.rest.length ≤ c.rest.length ∧ depth' ≤ depth) :
    enough m depth' c' ≤ enough m depth c := by
  unfold enough
  rcases h with ⟨hlt, hd⟩ | ⟨hle, hd⟩
  · have := Nat.mul_le_mul_left m.bound (Nat.succ_le_of_lt hlt)
    rw [Nat.mul_succ] at this
    omega
  · have := Nat.mul_le_mul_left m.bound hle
    omega

theorem blanks_of_not_loose {s : Setting} (hs : s.spacing ≠ .loose) (fuel : Nat) (c : Cursor) :
    g.blanks fuel s c = c := by
  cases fuel with
  | zero => rfl
  | succ fuel => rw [blanks, if_neg hs]

/-- How many calls the skipping of blanks makes in a setting. -/
def blanksIn (m : Measure ρ) (s : Setting) : Nat :=
  if s.spacing = .sealed then 0 else m.blanks

theorem blanksIn_le (s : Setting) : blanksIn m s ≤ m.blanks := by
  unfold blanksIn
  split
  · exact Nat.zero_le _
  · exact Nat.le_refl _

/-- The skipping of blanks does not need more fuel. -/
def BlanksSteady (g : Grammar ρ) (m : Measure ρ) (s : Setting) : Prop :=
  ∀ fuel c, enough m (blanksIn m s) c ≤ fuel → g.blanks (fuel + 1) s c = g.blanks fuel s c

/-- A setting in which the skipping of blanks does not need more fuel, as in all inside of it. -/
abbrev Settled (g : Grammar ρ) (m : Measure ρ) (s : Setting) : Prop :=
  s.spacing = .sealed ∨ ∀ s, BlanksSteady g m s

theorem Settled.blanks {s : Setting} (hs : Settled g m s) : BlanksSteady g m s := by
  rcases hs with hs | hs
  · intro fuel c _
    rw [blanks_of_not_loose (by rw [hs]; decide), blanks_of_not_loose (by rw [hs]; decide)]
  · exact hs s

/-- By induction on the fuel: what is tried next is either less deep or comes after a character that
was consumed. -/
theorem run_succ (hg : g.Orderly m) (fuel : Nat) :
    (∀ {s p c f}, Settled g m s → p.orderly m = true → enough m (p.depth m) c ≤ fuel →
      g.run (fuel + 1) s p c f = g.run fuel s p c f) ∧
    (∀ {s p c f done}, Settled g m s → (Pattern.star p).orderly m = true →
      enough m (max (blanksIn m s) (p.depth m) + 1) c ≤ fuel →
      g.loop (fuel + 1) s p c f done = g.loop fuel s p c f done) := by
  have hin (s : Setting) : blanksIn m s ≤ m.blanks := blanksIn_le s
  have hbound := hg.blanks
  induction fuel with
  | zero =>
    refine ⟨fun {_ p _ _} _ _ h => ?_, fun _ _ h => ?_⟩
    · have := p.depth_pos m
      unfold enough at h
      omega
    · unfold enough at h
      omega
  | succ fuel ih =>
    obtain ⟨hrun, hloop⟩ := ih
    constructor
    · intro s p c f hs hp h
      have hpart {depth : Nat} (hd : depth + 1 ≤ p.depth m) : enough m depth c ≤ fuel := by
        unfold enough at h ⊢
        omega
      cases p with
      | text chars => rfl
      | word chars => rfl
      | char accepts => rfl
      | finish => rfl
      | seq first second =>
        simp only [Pattern.orderly, Bool.and_eq_true, decide_eq_true_eq] at hp
        obtain ⟨⟨hfirst, hsecond⟩, hdeep⟩ := hp
        simp only [Pattern.depth, Nat.add_le_add_iff_right] at hpart
        rw [run, run, hrun hs hfirst (hpart (by omega))]
        rcases hr : g.run fuel s first c f with ⟨f₁, _ | ⟨c₁, ts⟩⟩
        · rfl
        obtain ⟨hle, hlt⟩ := (run_advances hg fuel).1 hr
        have hnext : enough m (max (blanksIn m s) (second.depth m)) c₁ ≤ fuel := by
          have := hin s
          cases hn : first.nullable m with
          | true =>
            rw [hn, if_pos rfl] at hpart
            exact (enough_le (.inr ⟨hle, by omega⟩)).trans (hpart (Nat.le_max_right _ _))
          | false =>
            exact (enough_le (.inl ⟨hlt hn, by omega⟩)).trans (hpart (Nat.le_max_left _ _))
        have hafter := (run_advances hg fuel).2.2 s c₁
        dsimp only
        rw [hs.blanks fuel c₁ ((enough_le (.inr ⟨Nat.le_refl _, Nat.le_max_left _ _⟩)).trans hnext),
          hrun hs hsecond ((enough_le (.inr ⟨hafter, Nat.le_max_right _ _⟩)).trans hnext)]
      | alt first second =>
        simp only [Pattern.orderly, Bool.and_eq_true] at hp
        simp only [Pattern.depth, Nat.add_le_add_iff_right] at hpart
        rw [run, run, hrun hs hp.1 (hpart (Nat.le_max_left _ _))]
        rcases g.run fuel s first c f with ⟨f₁, _ | _⟩
        · exact hrun hs hp.2 (hpart (Nat.le_max_right _ _))
        · rfl
      | opt p => rw [run, run, hrun (p := p) hs hp (hpart (Nat.le_refl _))]
      | star p =>
        have hparts := hp
        simp only [Pattern.orderly, Bool.and_eq_true, Bool.not_eq_true', decide_eq_true_eq] at hparts
        obtain ⟨⟨horderly, hn⟩, hdeep⟩ := hparts
        rw [run, run, hrun hs horderly (hpart (Nat.le_refl _))]
        rcases hr : g.run fuel s p c f with ⟨f₁, _ | ⟨c₁, ts⟩⟩
        · rfl
        have hlt := ((run_advances hg fuel).1 hr).2 hn
        have := hin s
        have := p.depth_pos m
        dsimp only
        rw [hloop hs hp ((enough_le (.inl ⟨hlt, by omega⟩)).trans (hpart (Nat.le_refl _)))]
      | ahead p =>
        have hin : Settled g m { s with probing := true } := hs
        rw [run, run, hrun (p := p) hin hp (hpart (Nat.le_refl _))]
      | notAhead p =>
        have hin : Settled g m { s with probing := true, negated := true } := hs
        rw [run, run, hrun (p := p) hin hp (hpart (Nat.le_refl _))]
      | rule r =>
        have hin : Settled g m { s with spacing :=
            (if s.spacing = .sealed then .sealed else (g.rule r).spacing.getD s.spacing) } :=
          hs.imp_left fun h => if_pos h
        rw [run, run, hrun hin (hg.orderly r) (hpart (Nat.succ_le_succ (hg.depth r)))]
    · intro s p c f done hs hp h
      have hparts := hp
      simp only [Pattern.orderly, Bool.and_eq_true, Bool.not_eq_true', decide_eq_true_eq] at hparts
      obtain ⟨⟨horderly, hn⟩, hdeep⟩ := hparts
      have hfuel : enough m (max (blanksIn m s) (p.depth m)) c ≤ fuel := Nat.le_of_succ_le_succ h
      have hafter := (run_advances hg fuel).2.2 s c
      rw [loop, loop,
        hs.blanks fuel c ((enough_le (.inr ⟨Nat.le_refl _, Nat.le_max_left _ _⟩)).trans hfuel),
        hrun hs horderly ((enough_le (.inr ⟨hafter, Nat.le_max_right _ _⟩)).trans hfuel)]
      rcases hr : g.run fuel s p (g.blanks fuel s c) f with ⟨f₁, _ | ⟨c₁, ts⟩⟩
      · rfl
      have hlt := ((run_advances hg fuel).1 hr).2 hn
      have := hin s
      have := p.depth_pos m
      exact hloop hs hp ((enough_le (.inl ⟨Nat.lt_of_lt_of_le hlt hafter, by omega⟩)).trans hfuel)

/-- Blanks can be repeated. -/
theorem Orderly.blanks_orderly (hg : g.Orderly m) : (Pattern.star g.blank).orderly m = true := by
  obtain ⟨horderly, hn, hblank⟩ := hg.blank
  have hbound := hg.blanks
  simp only [Pattern.orderly, Bool.and_eq_true, Bool.not_eq_true', decide_eq_true_eq]
  exact ⟨⟨horderly, hn⟩, by omega⟩

theorem blanks_steady (hg : g.Orderly m) (s : Setting) : BlanksSteady g m s := by
  by_cases hs : s.spacing = .sealed
  · exact Settled.blanks (.inl hs)
  intro fuel c h
  obtain ⟨-, -, hblank⟩ := hg.blank
  rw [blanksIn, if_neg hs] at h
  obtain ⟨fuel, rfl⟩ : ∃ n, fuel = n + 1 := ⟨fuel - 1, by unfold enough at h; omega⟩
  rw [blanks, blanks]
  split
  · rw [(run_succ hg fuel).2 (.inl rfl) hg.blanks_orderly]
    unfold enough blanksIn at *
    simp only [if_true]
    omega
  · rfl

/-- With more fuel than is enough, the matcher comes to the same. -/
theorem run_steady (hg : g.Orderly m) {s : Setting} {p : Pattern ρ} {c : Cursor} {f : Failures ρ}
    {fuel : Nat} (hp : p.orderly m = true) (h : enough m (p.depth m) c ≤ fuel) {more : Nat}
    (hmore : fuel ≤ more) : g.run more s p c f = g.run fuel s p c f := by
  induction more, hmore using Nat.le_induction with
  | base => rfl
  | succ more hle ih =>
    rw [(run_succ hg more).1 (.inr (blanks_steady hg)) hp (h.trans hle), ih]

end Grammar

end Lineage
