/-
  Lineage.Proofs.Grammar.Derivations

  How a pattern came to match.

  A match of the matcher that had enough fuel has a derivation: one rule for each way in
  which a pattern can match (`Derives`, `run_derives`).  A derivation says which
  alternatives did not match before.  The trees that a derivation leaves are grown, which
  is to say that each of them comes from a derivation of its own rule (`Tree.Grown`).

  Nothing else has a derivation (`derives_iff_takes`).

  From a derivation follow, by induction, which rules the trees of a pattern have
  (`Pattern.Yields`) and how the text of a sealed one is spelled (`Pattern.Spells`).
-/
import Lineage.Proofs.Grammar.Outcomes

namespace Lineage

namespace Grammar

open Filter

section

variable {ρ : Type} {g : Grammar ρ} {m : Measure ρ} {s : Setting} {p : Pattern ρ} {c c' : Cursor}
  {f : Failures ρ} {ts : List (Tree ρ)}

/-- With enough fuel a pattern does not match. -/
def Misses (g : Grammar ρ) (s : Setting) (p : Pattern ρ) (c : Cursor) : Prop :=
  ∃ f, ∀ᶠ fuel in atTop, (g.run fuel s p c f).2 = none

theorem Misses.not_takes (h : Misses g s p c) : ¬ Takes g s p c c' ts := by
  intro htakes
  obtain ⟨f, hmisses⟩ := h
  obtain ⟨fuel, hnone, hsome⟩ := (hmisses.and htakes).exists
  rw [hsome f] at hnone
  cases hnone

theorem misses_of_run (hg : g.Orderly m) {fuel : Nat} {f' : Failures ρ} (hp : p.orderly m = true)
    (h : enough m (p.depth m) c ≤ fuel) (hrun : g.run fuel s p c f = (f', none)) : Misses g s p c := by
  refine ⟨f, eventually_atTop.mpr ⟨fuel, fun more hmore => ?_⟩⟩
  rw [run_steady hg hp h hmore, hrun]

theorem skips_of_blanks (hg : g.Orderly m) {fuel : Nat}
    (h : enough m (blanksIn m s) c ≤ fuel) : Skips g s c (g.blanks fuel s c) := by
  refine eventually_atTop.mpr ⟨fuel, fun more hmore => ?_⟩
  induction more, hmore using Nat.le_induction with
  | base => rfl
  | succ more hle ih => rw [blanks_steady hg s more c (h.trans hle), ih]

theorem Skips.unique {c₁ c₂ : Cursor} (h : Skips g s c c₁) (h' : Skips g s c c₂) : c₁ = c₂ := by
  obtain ⟨fuel, h, h'⟩ := (h.and h').exists
  exact h.symm.trans h'

/-- No blanks are skipped inside a sealed rule. -/
theorem Skips.eq_of_sealed (h : Skips g s c c') (hs : s.spacing = .sealed) : c' = c := by
  obtain ⟨fuel, hfuel⟩ := h.exists
  rw [← hfuel, blanks_of_not_loose (by rw [hs]; decide)]

/-! ## Failures do not matter -/

/-- What matches does not depend on what has failed before. -/
theorem run_blind (g : Grammar ρ) (fuel : Nat) :
    (∀ s p c f f', (g.run fuel s p c f).2 = (g.run fuel s p c f').2) ∧
      ∀ s p c f f' done, (g.loop fuel s p c f done).2 = (g.loop fuel s p c f' done).2 := by
  induction fuel with
  | zero =>
    refine ⟨fun s p c f f' => by rw [run_zero, run_zero], fun s p c f f' done => ?_⟩
    rw [loop, loop]
  | succ fuel ih =>
    obtain ⟨hrun, hloop⟩ := ih
    have hsame (s : Setting) (p : Pattern ρ) (c : Cursor) (f f' : Failures ρ) :
        ∃ f₁ f₂ r, g.run fuel s p c f = (f₁, r) ∧ g.run fuel s p c f' = (f₂, r) :=
      ⟨_, _, _, rfl, Prod.ext rfl (hrun s p c f' f)⟩
    constructor
    · intro s p c f f'
      cases p with
      | text | word | finish => simp only [run]
      | char => simp only [run]; split <;> rfl
      | seq p q =>
        obtain ⟨f₁, f₂, r, h₁, h₂⟩ := hsame s p c f f'
        rw [run, run, h₁, h₂]
        rcases r with _ | ⟨c₁, ts⟩
        · rfl
        obtain ⟨f₃, f₄, r, h₃, h₄⟩ := hsame s q (g.blanks fuel s c₁) f₁ f₂
        dsimp only
        rw [h₃, h₄]
        rcases r with _ | ⟨c₂, us⟩ <;> rfl
      | alt p q =>
        obtain ⟨f₁, f₂, r, h₁, h₂⟩ := hsame s p c f f'
        rw [run, run, h₁, h₂]
        rcases r with _ | r
        · exact hrun s q c f₁ f₂
        · rfl
      | opt p | ahead p | notAhead p =>
        obtain ⟨f₁, f₂, r, h₁, h₂⟩ := hsame _ p c f f'
        rw [run, run, h₁, h₂]
        rcases r with _ | r <;> rfl
      | star p =>
        obtain ⟨f₁, f₂, r, h₁, h₂⟩ := hsame s p c f f'
        rw [run, run, h₁, h₂]
        rcases r with _ | ⟨c₁, ts⟩
        · rfl
        · have h := hloop s p c₁ f₁ f₂ ts.reverse
          exact congrArg (fun r => some (r.1, r.2.reverse)) h
      | rule r =>
        obtain ⟨f₁, f₂, t, h₁, h₂⟩ := hsame
          { s with spacing := if s.spacing = .sealed then .sealed else (g.rule r).spacing.getD s.spacing }
          (g.rule r).body c f f'
        rw [run, run]
        dsimp only
        rw [h₁, h₂]
        rcases t with _ | ⟨c₁, ts⟩
        · rfl
        · dsimp only
          split <;> rfl
    · intro s p c f f' done
      obtain ⟨f₁, f₂, r, h₁, h₂⟩ := hsame s p (g.blanks fuel s c) f f'
      rw [loop, loop, h₁, h₂]
      rcases r with _ | ⟨c₁, ts⟩
      · rfl
      · exact hloop s p c₁ f₁ f₂ _

theorem Misses.fails (h : Misses g s p c) : Fails g s p c := by
  obtain ⟨f, hf⟩ := h
  filter_upwards [hf] with fuel hnone f'
  rw [(run_blind g fuel).1 s p c f' f, hnone]

end

/-! ## Derivations -/

/-- What is matched: a pattern, or more of it after what a repetition has matched already. -/
inductive Goal (ρ : Type) where
  | once (p : Pattern ρ)
  | more (p : Pattern ρ)

/-- How a pattern came to match the text between two cursors, with the trees that it left. -/
inductive Derives {ρ : Type} (g : Grammar ρ) :
    Setting → Goal ρ → Cursor → Cursor → List (Tree ρ) → Prop
  | text {s chars c} (h : chars <+: c.rest) :
      Derives g s (.once (.text chars)) c (c.skip chars.length) []
  | word {s chars c} (h : startsWithWord chars c.rest = true) :
      Derives g s (.once (.word chars)) c (c.skip chars.length) []
  | char {s accepts c ch} (hhead : c.rest.head? = some ch) (h : accepts ch = true) :
      Derives g s (.once (.char accepts)) c (c.skip 1) []
  | finish {s c} (h : c.rest = []) : Derives g s (.once .finish) c c []
  | seq {s p q c c₁ c₂ c₃ ts us} (h : Derives g s (.once p) c c₁ ts) (hskip : Skips g s c₁ c₂)
      (h' : Derives g s (.once q) c₂ c₃ us) : Derives g s (.once (.seq p q)) c c₃ (ts ++ us)
  | left {s p q c c' ts} (h : Derives g s (.once p) c c' ts) :
      Derives g s (.once (.alt p q)) c c' ts
  | right {s p q c c' ts} (hmiss : Misses g s p c) (h : Derives g s (.once q) c c' ts) :
      Derives g s (.once (.alt p q)) c c' ts
  | opt_some {s p c c' ts} (h : Derives g s (.once p) c c' ts) :
      Derives g s (.once (.opt p)) c c' ts
  | opt_none {s p c} (hmiss : Misses g s p c) : Derives g s (.once (.opt p)) c c []
  | star_some {s p c c₁ c₂ ts us} (h : Derives g s (.once p) c c₁ ts)
      (h' : Derives g s (.more p) c₁ c₂ us) : Derives g s (.once (.star p)) c c₂ (ts ++ us)
  | star_none {s p c} (hmiss : Misses g s p c) : Derives g s (.once (.star p)) c c []
  | ahead {s p c c' ts} (h : Derives g { s with probing := true } (.once p) c c' ts) :
      Derives g s (.once (.ahead p)) c c []
  | notAhead {s p c} (hmiss : Misses g { s with probing := true, negated := true } p c) :
      Derives g s (.once (.notAhead p)) c c []
  | rule {s r c c' ts} (hs : s.plants = true)
      (h : Derives g (g.inside s r) (.once (g.rule r).body) c c' ts) :
      Derives g s (.once (.rule r)) c c'
        [.node r c.line c.column (c.rest.take (c'.offset - c.offset)) ts]
  | rule_bare {s r c c' ts} (hs : s.plants = false)
      (h : Derives g (g.inside s r) (.once (g.rule r).body) c c' ts) :
      Derives g s (.once (.rule r)) c c' ts
  | stop {s p c c₁} (hskip : Skips g s c c₁) (hmiss : Misses g s p c₁) :
      Derives g s (.more p) c c []
  | again {s p c c₁ c₂ c₃ ts us} (hskip : Skips g s c c₁) (h : Derives g s (.once p) c₁ c₂ ts)
      (h' : Derives g s (.more p) c₂ c₃ us) : Derives g s (.more p) c c₃ (ts ++ us)

/-- A match with enough fuel has a derivation.  By induction on the fuel, which lasts for each part as
in `run_succ`. -/
theorem run_derives {ρ : Type} {g : Grammar ρ} {m : Measure ρ} (hg : g.Orderly m) (fuel : Nat) :
    (∀ {s p c f f' c' ts}, p.orderly m = true → enough m (p.depth m) c ≤ fuel →
      g.run fuel s p c f = (f', some (c', ts)) → Derives g s (.once p) c c' ts) ∧
    ∀ {s p c f f' c' done all}, (Pattern.star p).orderly m = true →
      enough m (max (blanksIn m s) (p.depth m) + 1) c ≤ fuel →
      g.loop fuel s p c f done = (f', c', all) →
      ∃ ts, all = ts.reverse ++ done ∧ Derives g s (.more p) c c' ts := by
  have hin (s : Setting) : blanksIn m s ≤ m.blanks := blanksIn_le s
  have hbound := hg.blanks
  induction fuel with
  | zero =>
    constructor
    · intro s p c f f' c' ts _ _ hrun
      rw [run_zero] at hrun
      cases hrun
    · intro s p c f f' c' done all _ h
      unfold enough at h
      omega
  | succ fuel ih =>
    obtain ⟨hderives, hmore⟩ := ih
    constructor
    · intro s p c f f' c' ts hp h hrun
      have hpart {depth : Nat} (hd : depth + 1 ≤ p.depth m) : enough m depth c ≤ fuel := by
        unfold enough at h ⊢
        omega
      cases p with
      | text chars =>
        simp only [run, Prod.mk.injEq, Option.ite_none_right_eq_some, Option.some.injEq] at hrun
        obtain ⟨-, hprefix, hmatch⟩ := hrun
        cases hmatch
        exact .text (List.isPrefixOf_iff_prefix.mp hprefix)
      | word chars =>
        simp only [run, Prod.mk.injEq, Option.ite_none_right_eq_some, Option.some.injEq] at hrun
        obtain ⟨-, hword, hmatch⟩ := hrun
        cases hmatch
        exact .word hword
      | char accepts =>
        simp only [run] at hrun
        split at hrun
        · rename_i ch rest hrest
          simp only [Prod.mk.injEq, Option.ite_none_right_eq_some, Option.some.injEq] at hrun
          obtain ⟨-, haccepts, hmatch⟩ := hrun
          cases hmatch
          exact .char (by rw [hrest]; rfl) haccepts
        · cases hrun
      | finish =>
        simp only [run, Prod.mk.injEq, Option.ite_none_right_eq_some, Option.some.injEq] at hrun
        obtain ⟨-, hempty, hmatch⟩ := hrun
        cases hmatch
        exact .finish (List.isEmpty_iff.mp hempty)
      | seq first second =>
        simp only [Pattern.orderly, Bool.and_eq_true, decide_eq_true_eq] at hp
        obtain ⟨⟨hfirst, hsecond⟩, hdeep⟩ := hp
        simp only [Pattern.depth, Nat.add_le_add_iff_right] at hpart
        rw [run] at hrun
        rcases hr : g.run fuel s first c f with ⟨f₁, _ | ⟨c₁, ts₁⟩⟩
        · rw [hr] at hrun
          cases hrun
        rw [hr] at hrun
        obtain ⟨hle, hlt⟩ := (run_advances hg fuel).1 hr
        have hnext : enough m (max (blanksIn m s) (second.depth m)) c₁ ≤ fuel := by
          have := hin s
          cases hn : first.nullable m with
          | true =>
            rw [hn, if_pos rfl] at hpart
            exact (enough_le (.inr ⟨hle, by omega⟩)).trans (hpart (Nat.le_max_right _ _))
          | false =>
            exact (enough_le (.inl ⟨hlt hn, by omega⟩)).trans (hpart (Nat.le_max_left _ _))
        have hafter := (run_advances hg fuel).2.2 s c₁
        have hblanks : enough m (blanksIn m s) c₁ ≤ fuel :=
          (enough_le (.inr ⟨Nat.le_refl _, Nat.le_max_left _ _⟩)).trans hnext
        dsimp only at hrun
        split at hrun
        · cases hrun
        · rename_i hr'
          cases hrun
          refine .seq (hderives hfirst (hpart (by omega)) hr) (skips_of_blanks hg hblanks) ?_
          exact hderives hsecond ((enough_le (.inr ⟨hafter, Nat.le_max_right _ _⟩)).trans hnext) hr'
      | alt first second =>
        simp only [Pattern.orderly, Bool.and_eq_true] at hp
        simp only [Pattern.depth, Nat.add_le_add_iff_right] at hpart
        rw [run] at hrun
        split at hrun
        · rename_i hr
          exact .right (misses_of_run hg hp.1 (hpart (Nat.le_max_left _ _)) hr)
            (hderives hp.2 (hpart (Nat.le_max_right _ _)) hrun)
        · exact .left (hderives hp.1 (hpart (Nat.le_max_left _ _)) hrun)
      | opt p =>
        rw [run] at hrun
        split at hrun
        · rename_i hr
          cases hrun
          exact .opt_none (misses_of_run (p := p) hg hp (hpart (Nat.le_refl _)) hr)
        · exact .opt_some (hderives (p := p) hp (hpart (Nat.le_refl _)) hrun)
      | star p =>
        have hparts := hp
        simp only [Pattern.orderly, Bool.and_eq_true, Bool.not_eq_true', decide_eq_true_eq] at hparts
        obtain ⟨⟨horderly, hn⟩, hdeep⟩ := hparts
        rw [run] at hrun
        split at hrun
        · rename_i hr
          cases hrun
          exact .star_none (misses_of_run hg horderly (hpart (Nat.le_refl _)) hr)
        · rename_i f₁ c₁ ts₁ hr
          have hlt := ((run_advances hg fuel).1 hr).2 hn
          have := hin s
          have := p.depth_pos m
          have hfuel : enough m (max (blanksIn m s) (p.depth m) + 1) c₁ ≤ fuel :=
            (enough_le (.inl ⟨hlt, by omega⟩)).trans (hpart (Nat.le_refl _))
          rcases hloop : g.loop fuel s p c₁ f₁ ts₁.reverse with ⟨f₂, c₂, all⟩
          obtain ⟨us, rfl, hus⟩ := hmore hp hfuel hloop
          rw [hloop] at hrun
          cases hrun
          rw [List.reverse_append, List.reverse_reverse, List.reverse_reverse]
          exact .star_some (hderives horderly (hpart (Nat.le_refl _)) hr) hus
      | ahead p =>
        rw [run] at hrun
        split at hrun
        · cases hrun
        · rename_i hr
          cases hrun
          exact .ahead (hderives (p := p) hp (hpart (Nat.le_refl _)) hr)
      | notAhead p =>
        rw [run] at hrun
        split at hrun
        · rename_i hr
          cases hrun
          exact .notAhead (misses_of_run (p := p) hg hp (hpart (Nat.le_refl _)) hr)
        · cases hrun
      | rule r =>
        have hbody := hpart (Nat.succ_le_succ (hg.depth r))
        rw [run] at hrun
        dsimp only at hrun
        split at hrun
        · cases hrun
        · rename_i hr
          have hinner : Derives g (g.inside s r) (.once (g.rule r).body) c _ _ :=
            hderives (hg.orderly r) hbody hr
          split at hrun
          · rename_i hs
            cases hrun
            exact .rule hs hinner
          · rename_i hs
            cases hrun
            exact .rule_bare (Bool.eq_false_iff.mpr hs) hinner
    · intro s p c f f' c' done all hp h hloop
      have hparts := hp
      simp only [Pattern.orderly, Bool.and_eq_true, Bool.not_eq_true', decide_eq_true_eq] at hparts
      obtain ⟨⟨horderly, hn⟩, hdeep⟩ := hparts
      have hfuel : enough m (max (blanksIn m s) (p.depth m)) c ≤ fuel := Nat.le_of_succ_le_succ h
      have hafter := (run_advances hg fuel).2.2 s c
      have hskip : Skips g s c (g.blanks fuel s c) :=
        skips_of_blanks hg ((enough_le (.inr ⟨Nat.le_refl _, Nat.le_max_left _ _⟩)).trans hfuel)
      have hp' : enough m (p.depth m) (g.blanks fuel s c) ≤ fuel :=
        (enough_le (.inr ⟨hafter, Nat.le_max_right _ _⟩)).trans hfuel
      rw [loop] at hloop
      split at hloop
      · rename_i hr
        cases hloop
        exact ⟨[], rfl, .stop hskip (misses_of_run hg horderly hp' hr)⟩
      · rename_i f₁ c₁ ts₁ hr
        have hlt := ((run_advances hg fuel).1 hr).2 hn
        have := hin s
        have := p.depth_pos m
        have hrest : enough m (max (blanksIn m s) (p.depth m) + 1) c₁ ≤ fuel :=
          (enough_le (.inl ⟨Nat.lt_of_lt_of_le hlt hafter, by omega⟩)).trans hfuel
        obtain ⟨us, rfl, hus⟩ := hmore hp hrest hloop
        refine ⟨ts₁ ++ us, ?_, .again hskip (hderives horderly hp' hr) hus⟩
        rw [List.reverse_append, List.append_assoc]

/-- What a match takes and leaves. -/
def Goal.Takes {ρ : Type} (g : Grammar ρ) (s : Setting) : Goal ρ → Cursor → Cursor → List (Tree ρ) → Prop
  | .once p => Grammar.Takes g s p
  | .more p => Repeats g s p

section

variable {ρ : Type} {g : Grammar ρ} {m : Measure ρ} {s : Setting} {p : Pattern ρ} {c c' : Cursor}
  {ts : List (Tree ρ)}

/-- What has a derivation is what the matcher comes to. -/
theorem Derives.takes {goal : Goal ρ} (h : Derives g s goal c c' ts) : goal.Takes g s c c' ts := by
  induction h with
  | text h =>
    obtain ⟨tail, htail⟩ := h
    exact text_takes htail.symm
  | word h => exact word_takes h
  | char hhead h =>
    obtain ⟨tail, htail⟩ := List.head?_eq_some_iff.mp hhead
    exact char_takes htail h
  | finish h => exact finish_takes h
  | seq _ hskip _ ih ih' => exact seq_takes ih hskip ih'
  | left _ ih => exact alt_left ih
  | right hmiss _ ih => exact alt_right hmiss.fails ih
  | opt_some _ ih => exact opt_takes ih
  | opt_none hmiss => exact Grammar.opt_none hmiss.fails
  | star_some _ _ ih ih' => exact star_takes ih ih'
  | star_none hmiss => exact Grammar.star_none hmiss.fails
  | ahead _ ih => exact ahead_takes ih
  | notAhead hmiss => exact notAhead_takes hmiss.fails
  | rule hs _ ih => exact rule_plants hs ih
  | rule_bare hs _ ih => exact rule_takes_unplanted hs ih
  | stop hskip hmiss => exact repeats_stop hskip hmiss.fails
  | again hskip _ _ ih ih' => exact repeats_more hskip ih ih'

/-- The matches with a derivation are those that the matcher comes to. -/
theorem derives_iff_takes (hg : g.Orderly m) (hp : p.orderly m = true) :
    Derives g s (.once p) c c' ts ↔ Takes g s p c c' ts := by
  refine ⟨Derives.takes, fun h => ?_⟩
  obtain ⟨fuel, hrun, henough⟩ := (h.and (eventually_ge_atTop (enough m (p.depth m) c))).exists
  exact (run_derives hg fuel).1 hp henough (Prod.ext rfl (hrun {}))

end

end Grammar

/-! ## Grown trees -/

/-- A tree that a rule leaves where it matches, as do the trees inside it. -/
inductive Tree.Grown {ρ : Type} (g : Grammar ρ) : Tree ρ → Prop
  | node {s r c c' ts} (hs : s.plants = true)
      (h : g.Derives (g.inside s r) (.once (g.rule r).body) c c' ts) (hts : ∀ t ∈ ts, t.Grown g) :
      Tree.Grown g (.node r c.line c.column (c.rest.take (c'.offset - c.offset)) ts)

namespace Pattern

variable {ρ : Type}

/-- Which rules the trees of a match have, in order. -/
def Yields : Pattern ρ → List ρ → Prop
  | .text _, rs | .word _, rs | .char _, rs | .finish, rs | .ahead _, rs | .notAhead _, rs => rs = []
  | .seq p q, rs => ∃ front back, rs = front ++ back ∧ p.Yields front ∧ q.Yields back
  | .alt p q, rs => p.Yields rs ∨ q.Yields rs
  | .opt p, rs => rs = [] ∨ p.Yields rs
  | .star p, rs => ∃ parts : List (List ρ), rs = parts.flatten ∧ ∀ part ∈ parts, p.Yields part
  | .rule r, rs => rs = [r]

/-- How the text of a match without blanks can be spelled.  Look-aheads and order do not count. -/
def Spells : Pattern ρ → List Char → Prop
  | .text s, chars => chars = s
  | .word s, chars => chars.length = s.length ∧ startsWithWord s chars = true
  | .char accepts, chars => ∃ ch, chars = [ch] ∧ accepts ch = true
  | .finish, chars | .ahead _, chars | .notAhead _, chars => chars = []
  | .seq p q, chars => ∃ front back, chars = front ++ back ∧ p.Spells front ∧ q.Spells back
  | .alt p q, chars => p.Spells chars ∨ q.Spells chars
  | .opt p, chars => chars = [] ∨ p.Spells chars
  | .star p, chars => ∃ parts : List (List Char), chars = parts.flatten ∧ ∀ part ∈ parts, p.Spells part
  | .rule _, _ => True

variable {p : Pattern ρ}

theorem Yields.star_cons {front back : List ρ} (h : p.Yields front) (h' : p.star.Yields back) :
    p.star.Yields (front ++ back) := by
  obtain ⟨parts, rfl, hparts⟩ := h'
  exact ⟨front :: parts, rfl, List.forall_mem_cons.mpr ⟨h, hparts⟩⟩

theorem Spells.star_cons {front back : List Char} (h : p.Spells front) (h' : p.star.Spells back) :
    p.star.Spells (front ++ back) := by
  obtain ⟨parts, rfl, hparts⟩ := h'
  exact ⟨front :: parts, rfl, List.forall_mem_cons.mpr ⟨h, hparts⟩⟩

end Pattern

namespace Grammar

variable {ρ : Type} {g : Grammar ρ} {s : Setting} {goal : Goal ρ} {c c' : Cursor}
  {ts : List (Tree ρ)}

namespace Goal

def Yields : Goal ρ → List ρ → Prop
  | .once p => p.Yields
  | .more p => p.star.Yields

def Spells : Goal ρ → List Char → Prop
  | .once p => p.Spells
  | .more p => p.star.Spells

end Goal

theorem startsWithWord_take {word text : List Char} (h : startsWithWord word text = true) :
    startsWithWord word (text.take word.length) = true := by
  induction word generalizing text with
  | nil => rfl
  | cons a word ih =>
    cases text with
    | nil => cases h
    | cons b text =>
      rw [startsWithWord, Bool.and_eq_true] at h
      rw [List.length_cons, List.take_succ_cons, startsWithWord, h.1, ih h.2]
      rfl

/-- What one part leaves to the next, where nothing is skipped between them. -/
theorem rest_append {c₁ c₂ c₃ : Cursor} {front tail back tail' : List Char}
    (hrest : c.rest = front ++ tail) (hfront : c₁ = c.skip front.length) (hskip : c₂ = c₁)
    (hrest' : c₂.rest = back ++ tail') (hback : c₃ = c₂.skip back.length) :
    c.rest = (front ++ back) ++ tail' ∧ c₃ = c.skip (front ++ back).length := by
  subst hfront hskip hback
  rw [Cursor.rest_skip_append hrest] at hrest'
  rw [Cursor.skip_append, hrest, hrest', List.append_assoc]
  exact ⟨rfl, rfl⟩

namespace Derives

theorem grown (h : Derives g s goal c c' ts) : ∀ t ∈ ts, t.Grown g := by
  induction h with
  | seq _ _ _ ih ih' | star_some _ _ ih ih' | again _ _ _ ih ih' =>
    intro t ht
    rcases List.mem_append.mp ht with ht | ht
    · exact ih t ht
    · exact ih' t ht
  | left _ ih | right _ _ ih | opt_some _ ih | rule_bare _ _ ih => exact ih
  | rule hs h ih =>
    intro t ht
    obtain rfl := List.mem_singleton.mp ht
    exact .node hs h ih
  | _ => exact fun t ht => absurd ht List.not_mem_nil

/-- Where trees are left, they have the rules of the pattern. -/
theorem yields (h : Derives g s goal c c' ts) (hs : s.plants = true) :
    goal.Yields (ts.map Tree.rule) := by
  induction h with
  | text | word | char | finish | ahead | notAhead => rfl
  | seq _ _ _ ih ih' => exact ⟨_, _, List.map_append, ih hs, ih' hs⟩
  | left _ ih => exact .inl (ih hs)
  | right _ _ ih => exact .inr (ih hs)
  | opt_some _ ih => exact .inr (ih hs)
  | opt_none => exact .inl rfl
  | star_some _ _ ih ih' | again _ _ _ ih ih' =>
    rw [List.map_append]
    exact (ih hs).star_cons (ih' hs)
  | star_none | stop => exact ⟨[], rfl, nofun⟩
  | rule => rfl
  | rule_bare hbare => rw [hs] at hbare; cases hbare

theorem bare (h : Derives g s goal c c' ts) (hs : s.plants = false) : ts = [] := by
  have hin (r : ρ) (s : Setting) (hs : s.plants = false) : (g.inside s r).plants = false := by
    simp only [Setting.plants, inside, Bool.and_eq_false_iff] at hs ⊢
    rcases hs with hs | hs
    · left
      rw [bne_eq_false_iff_eq] at hs
      rw [hs]
      rfl
    · exact .inr hs
  induction h with
  | seq _ _ _ ih ih' | star_some _ _ ih ih' | again _ _ _ ih ih' => rw [ih hs, ih' hs]; rfl
  | left _ ih | right _ _ ih | opt_some _ ih => exact ih hs
  | rule hplants => rw [hs] at hplants; cases hplants
  | @rule_bare s r _ _ _ _ _ ih => exact ih (hin r s hs)
  | _ => rfl

/-- Inside a sealed rule, the text between the cursors is spelled as the pattern says. -/
theorem spells (h : Derives g s goal c c' ts) (hs : s.spacing = .sealed) :
    ∃ chars tail, c.rest = chars ++ tail ∧ c' = c.skip chars.length ∧ goal.Spells chars := by
  have hin (r : ρ) {s : Setting} (hs : s.spacing = .sealed) : (g.inside s r).spacing = .sealed :=
    if_pos hs
  induction h with
  | text h =>
    obtain ⟨tail, htail⟩ := h
    exact ⟨_, tail, htail.symm, rfl, rfl⟩
  | @word s chars c h =>
    have hlength : (c.rest.take chars.length).length = chars.length := by
      rw [List.length_take]
      exact Nat.min_eq_left (length_le_of_startsWithWord h)
    refine ⟨c.rest.take chars.length, c.rest.drop chars.length, ?_, ?_, hlength, ?_⟩
    · exact (List.take_append_drop _ _).symm
    · rw [hlength]
    · exact startsWithWord_take h
  | @char s accepts c ch hhead h =>
    obtain ⟨tail, htail⟩ := List.head?_eq_some_iff.mp hhead
    exact ⟨[ch], tail, htail, rfl, ch, rfl, h⟩
  | finish | ahead | notAhead => exact ⟨[], _, rfl, rfl, rfl⟩
  | star_none | stop => exact ⟨[], _, rfl, rfl, [], rfl, nofun⟩
  | opt_none => exact ⟨[], _, rfl, rfl, .inl rfl⟩
  | seq _ hskip _ ih ih' =>
    obtain ⟨front, tail, hrest, hfront, hspells⟩ := ih hs
    obtain ⟨back, tail', hrest', hback, hspells'⟩ := ih' hs
    obtain ⟨h, h'⟩ := rest_append hrest hfront (hskip.eq_of_sealed hs) hrest' hback
    exact ⟨front ++ back, tail', h, h', front, back, rfl, hspells, hspells'⟩
  | star_some _ _ ih ih' =>
    obtain ⟨front, tail, hrest, hfront, hspells⟩ := ih hs
    obtain ⟨back, tail', hrest', hback, hspells'⟩ := ih' hs
    obtain ⟨h, h'⟩ := rest_append hrest hfront rfl hrest' hback
    exact ⟨front ++ back, tail', h, h', hspells.star_cons hspells'⟩
  | again hskip _ _ ih ih' =>
    obtain ⟨front, tail, hrest, hfront, hspells⟩ := ih hs
    obtain ⟨back, tail', hrest', hback, hspells'⟩ := ih' hs
    rw [hskip.eq_of_sealed hs] at hrest hfront
    obtain ⟨h, h'⟩ := rest_append hrest hfront rfl hrest' hback
    exact ⟨front ++ back, tail', h, h', hspells.star_cons hspells'⟩
  | left _ ih =>
    obtain ⟨chars, tail, hrest, hchars, hspells⟩ := ih hs
    exact ⟨chars, tail, hrest, hchars, .inl hspells⟩
  | right _ _ ih | opt_some _ ih =>
    obtain ⟨chars, tail, hrest, hchars, hspells⟩ := ih hs
    exact ⟨chars, tail, hrest, hchars, .inr hspells⟩
  | @rule _ r _ _ _ _ _ ih | @rule_bare _ r _ _ _ _ _ ih =>
    obtain ⟨chars, tail, hrest, hchars, -⟩ := ih (hin r hs)
    exact ⟨chars, tail, hrest, hchars, trivial⟩

/-- A match of a sealed rule leaves one tree with the text between the cursors and nothing inside. -/
theorem token {r : ρ} (hr : (g.rule r).spacing = some .sealed) (hs : s.plants = true)
    (h : Derives g s (.once (.rule r)) c c' ts) :
    ∃ chars tail, c.rest = chars ++ tail ∧ c' = c.skip chars.length ∧
      ts = [.node r c.line c.column chars []] := by
  have hsealed : (g.inside s r).spacing = .sealed := by
    simp only [inside, hr, Option.getD_some, ite_self]
  cases h with
  | rule_bare hbare =>
    rw [hs] at hbare
    cases hbare
  | rule _ h =>
    obtain ⟨chars, tail, hrest, rfl, -⟩ := h.spells hsealed
    obtain rfl := h.bare (by simp only [Setting.plants, hsealed, bne_self_eq_false, Bool.false_and])
    rw [Cursor.take_offset_skip hrest]
    exact ⟨chars, tail, hrest, rfl, rfl⟩

end Derives

end Grammar

/-! ## Parts of grown trees -/

namespace Tree.Grown

variable {ρ : Type} {g : Grammar ρ} {r : ρ} {line column : Nat} {text : List Char} {ts : List (Tree ρ)}

/-- The trees inside a tree are grown. -/
theorem inner (h : Tree.Grown g (.node r line column text ts)) : ∀ t ∈ ts, t.Grown g := by
  cases h with
  | node _ _ hts => exact hts

/-- The trees inside a tree have the rules that its own one yields. -/
theorem yields (h : Tree.Grown g (.node r line column text ts))
    (hr : (g.rule r).spacing ≠ some .sealed) : (g.rule r).body.Yields (ts.map Tree.rule) := by
  cases h with
  | @node s _ _ _ _ hs h _ =>
    refine h.yields ?_
    simp only [Setting.plants, Grammar.inside, Bool.and_eq_true, bne_iff_ne, ne_eq] at hs ⊢
    refine ⟨?_, hs.2⟩
    rw [if_neg hs.1]
    cases hspacing : (g.rule r).spacing with
    | none => exact hs.1
    | some spacing =>
      rw [hspacing] at hr
      exact fun h => hr (congrArg some h)

/-- A tree of a sealed rule has nothing inside, and its text is spelled as the rule says. -/
theorem spells (h : Tree.Grown g (.node r line column text ts))
    (hr : (g.rule r).spacing = some .sealed) : ts = [] ∧ (g.rule r).body.Spells text := by
  cases h with
  | @node s _ c c' _ _ h _ =>
    have hsealed : (g.inside s r).spacing = .sealed := by
      simp only [Grammar.inside, hr, Option.getD_some, ite_self]
    refine ⟨h.bare (by simp only [Setting.plants, hsealed, bne_self_eq_false, Bool.false_and]), ?_⟩
    obtain ⟨chars, tail, hrest, rfl, hspells⟩ := h.spells hsealed
    rw [Cursor.take_offset_skip hrest]
    exact hspells

end Tree.Grown

end Lineage
