/-
  Lineage.Proofs.Grammar.Parts

  The parts of a match.

  A match of a rule is made of matches of the rules and words in its body (`Part`), and a
  parse of all the rules that are matched on the way (`Matched`).  Where in a body a rule or
  a word can stand is computed from the body alone (`Pattern.leaves`).

  A repetition ends where what it repeats does not match.  Some rules end so, and then
  whatever follows them stands where that does not match.  This too is computed from a
  body, for a whole rule (`Pattern.ends`) and for what stands in it (`Pattern.guards`).
-/
import Lineage.Proofs.Grammar.Derivations

namespace Lineage

/-- What a body is made of. -/
inductive Leaf (ρ : Type) where
  | rule (r : ρ)
  | word (w : List Char)
  deriving DecidableEq

namespace Pattern

variable {ρ : Type}

/-- The rules and words that can take part in a match.  Those that are only looked for do not. -/
def leaves : Pattern ρ → List (Leaf ρ)
  | .rule r => [.rule r]
  | .word w => [.word w]
  | .seq p q | .alt p q => p.leaves ++ q.leaves
  | .opt p | .star p => p.leaves
  | _ => []

/-- Whether a match ends where a certain pattern does not match.  The rules in `ended` do, and
`b` tells whether the match starts so. -/
def ends (ended : ρ → Bool) : Pattern ρ → Bool → Bool
  | .rule r, _ => ended r
  | .seq p q, b => q.ends ended (p.ends ended b)
  | .alt p q, b => p.ends ended b && q.ends ended b
  | .opt p, b | .star p, b => b && p.ends ended b
  | .ahead _, b | .notAhead _, b => b
  | _, _ => false

/-- Whether a leaf stands only where a certain pattern does not match. -/
def guards [DecidableEq ρ] (ended : ρ → Bool) (l : Leaf ρ) : Pattern ρ → Bool → Bool
  | .rule r, b => l != .rule r || b
  | .word w, b => l != .word w || b
  | .seq p q, b => p.guards ended l b && q.guards ended l (p.ends ended b)
  | .alt p q, b => p.guards ended l b && q.guards ended l b
  | .opt p, b => p.guards ended l b
  | .star p, b => p.guards ended l (b && p.ends ended b)
  | _, _ => true

end Pattern

namespace Grammar

open Filter

variable {ρ : Type} {g : Grammar ρ} {m : Measure ρ} {s : Setting} {p q : Pattern ρ}
  {c c' c₁ c₂ : Cursor} {ts : List (Tree ρ)}

/-! ## Where repetitions end -/

/-- A repetition ends where the pattern does not match again. -/
theorem Derives.more_misses {goal : Goal ρ} (h : Derives g s goal c c' ts) (hgoal : goal = .more p)
    (hskip : Skips g s c' c₁) : Misses g s p c₁ := by
  induction h with
  | stop hskip' hmiss =>
    cases hgoal
    exact hskip'.unique hskip ▸ hmiss
  | again _ _ _ _ ih => exact ih hgoal hskip
  | _ => cases hgoal

/-- After blanks there are no more blanks. -/
theorem skips_again (hg : g.Orderly m) (h : Skips g s c c₁) : Skips g s c₁ c₁ := by
  by_cases hs : s.spacing = .loose
  · obtain ⟨fuel, hfuel, henough⟩ := (h.and (eventually_gt_atTop
      (enough m (max (blanksIn m { spacing := .sealed }) (g.blank.depth m) + 1) c))).exists
    obtain ⟨fuel, rfl⟩ := Nat.exists_eq_add_one_of_ne_zero (Nat.ne_zero_of_lt henough)
    rw [blanks, if_pos hs] at hfuel
    subst hfuel
    obtain ⟨ts, -, hderives⟩ :=
      (run_derives hg fuel).2 hg.blanks_orderly (Nat.le_of_lt_succ henough) rfl
    -- The blanks ended where no blank matches.
    have hmiss := hderives.more_misses rfl (skips_of_not_loose (by decide))
    exact skips_of_repeats hs (repeats_stop (skips_of_not_loose (by decide)) hmiss.fails)
  · exact skips_of_not_loose hs

/-! ## Parts of a match -/

/-- A rule or a word matches between two cursors as a part of a match.  What is only looked for is no
part, and neither is what is inside of a rule. -/
inductive Part (g : Grammar ρ) (s : Setting) : Leaf ρ → Cursor → Cursor → Goal ρ → Cursor → Cursor → Prop
  | rule {r c c' ts} (h : Derives g s (.once (.rule r)) c c' ts) :
      Part g s (.rule r) c c' (.once (.rule r)) c c'
  | word {w c c' ts} (h : Derives g s (.once (.word w)) c c' ts) :
      Part g s (.word w) c c' (.once (.word w)) c c'
  | seq_front {l k k' p q c c₁ c₂ c₃ ts} (h : Part g s l k k' (.once p) c c₁) (hskip : Skips g s c₁ c₂)
      (h' : Derives g s (.once q) c₂ c₃ ts) : Part g s l k k' (.once (.seq p q)) c c₃
  | seq_back {l k k' p q c c₁ c₂ c₃ ts} (h : Derives g s (.once p) c c₁ ts) (hskip : Skips g s c₁ c₂)
      (h' : Part g s l k k' (.once q) c₂ c₃) : Part g s l k k' (.once (.seq p q)) c c₃
  | left {l k k' p q c c'} (h : Part g s l k k' (.once p) c c') :
      Part g s l k k' (.once (.alt p q)) c c'
  | right {l k k' p q c c'} (hmiss : Misses g s p c) (h : Part g s l k k' (.once q) c c') :
      Part g s l k k' (.once (.alt p q)) c c'
  | opt {l k k' p c c'} (h : Part g s l k k' (.once p) c c') : Part g s l k k' (.once (.opt p)) c c'
  | star_first {l k k' p c c₁ c₂ ts} (h : Part g s l k k' (.once p) c c₁)
      (h' : Derives g s (.more p) c₁ c₂ ts) : Part g s l k k' (.once (.star p)) c c₂
  | star_more {l k k' p c c₁ c₂ ts} (h : Derives g s (.once p) c c₁ ts)
      (h' : Part g s l k k' (.more p) c₁ c₂) : Part g s l k k' (.once (.star p)) c c₂
  | again_first {l k k' p c c₁ c₂ c₃ ts} (hskip : Skips g s c c₁) (h : Part g s l k k' (.once p) c₁ c₂)
      (h' : Derives g s (.more p) c₂ c₃ ts) : Part g s l k k' (.more p) c c₃
  | again_more {l k k' p c c₁ c₂ c₃ ts} (hskip : Skips g s c c₁) (h : Derives g s (.once p) c₁ c₂ ts)
      (h' : Part g s l k k' (.more p) c₂ c₃) : Part g s l k k' (.more p) c c₃

/-- The rules and words of the pattern that is matched. -/
def Goal.leaves : Goal ρ → List (Leaf ρ)
  | .once p | .more p => p.leaves

/-- What a match starts with is not skipped. -/
def Goal.Ready (g : Grammar ρ) (s : Setting) : Goal ρ → Cursor → Prop
  | .once _, c => Skips g s c c
  | .more _, _ => True

/-- What `Pattern.ends` tells of a pattern, or of more of it after what was matched already. -/
def Goal.ends (ended : ρ → Bool) : Goal ρ → Bool → Bool
  | .once p, b => p.ends ended b
  | .more p, b => b && p.ends ended b

def Goal.guards [DecidableEq ρ] (ended : ρ → Bool) (l : Leaf ρ) : Goal ρ → Bool → Bool
  | .once p, b => p.guards ended l b
  | .more p, b => p.guards ended l b && (!b || p.ends ended b)

namespace Part

variable {l : Leaf ρ} {k k' : Cursor} {goal : Goal ρ}

theorem mem_leaves (h : Part g s l k k' goal c c') : l ∈ goal.leaves := by
  induction h with
  | rule | word => exact List.mem_singleton_self _
  | seq_front _ _ _ ih | left _ ih => exact List.mem_append_left _ ih
  | seq_back _ _ _ ih | right _ _ ih => exact List.mem_append_right _ ih
  | opt _ ih | star_first _ _ ih | star_more _ _ ih | again_first _ _ _ ih | again_more _ _ _ ih =>
    exact ih

/-- A word that is a part is there. -/
theorem derives_word {w : List Char} (h : Part g s (.word w) k k' goal c c') :
    startsWithWord w k.rest = true ∧ k' = k.skip w.length := by
  generalize hl : Leaf.word w = l at h
  induction h with
  | word h => cases hl; cases h with | word h => exact ⟨h, rfl⟩
  | rule => cases hl
  | _ => rename_i ih; exact ih hl

/-- Where no blanks come first in a match, none come first in a part. -/
theorem ready (hg : g.Orderly m) (h : Part g s l k k' goal c c') (hc : goal.Ready g s c) :
    Skips g s k k := by
  induction h with
  | rule | word => exact hc
  | seq_front _ _ _ ih | left _ ih | right _ _ ih | opt _ ih | star_first _ _ ih => exact ih hc
  | seq_back _ hskip _ ih => exact ih (skips_again hg hskip)
  | star_more _ _ ih | again_more _ _ _ ih => exact ih trivial
  | again_first hskip _ _ ih => exact ih (skips_again hg hskip)

end Part

/-! ## What follows a repetition -/

/-- After blanks the pattern does not match. -/
def Closed (g : Grammar ρ) (s : Setting) (q : Pattern ρ) (c : Cursor) : Prop :=
  ∀ c', Skips g s c c' → Misses g s q c'

theorem Closed.skip (hg : g.Orderly m) (h : Closed g s q c) (hskip : Skips g s c c₁) :
    Closed g s q c₁ :=
  fun _ hagain => (skips_again hg hskip).unique hagain ▸ h _ hskip

/-- The rules in `ended` end where the pattern does not match. -/
def Ending (g : Grammar ρ) (s : Setting) (q : Pattern ρ) (ended : ρ → Bool) : Prop :=
  ∀ r c c' ts, ended r = true → Skips g s c c → Derives g s (.once (.rule r)) c c' ts →
    Closed g s q c'

section

variable {ended : ρ → Bool} {b : Bool} {goal : Goal ρ} {l : Leaf ρ} {k k' : Cursor}

/-- Where a match ends, the pattern does not match, as far as `Pattern.ends` tells.  Repeating goes on
only where it has not matched before. -/
theorem closed_of_ends (hg : g.Orderly m) (hended : Ending g s q ended)
    (h : Derives g s goal c c' ts) :
    ∀ b, goal.ends ended b = true → goal.Ready g s c → (b = true → Closed g s q c) →
      Closed g s q c' := by
  induction h with
  | text | word | char | finish => nofun
  | seq h hskip h' ih ih' =>
    intro b hb hc hclosed
    exact ih' hended _ hb (skips_again hg hskip)
      fun hfirst => (ih hended b hfirst hc hclosed).skip hg hskip
  | left _ ih =>
    intro b hb hc hclosed
    exact ih hended b (Bool.and_eq_true_iff.mp hb).1 hc hclosed
  | right _ _ ih =>
    intro b hb hc hclosed
    exact ih hended b (Bool.and_eq_true_iff.mp hb).2 hc hclosed
  | opt_some _ ih =>
    intro b hb hc hclosed
    exact ih hended b (Bool.and_eq_true_iff.mp hb).2 hc hclosed
  | opt_none | star_none | stop =>
    intro b hb _ hclosed
    exact hclosed (Bool.and_eq_true_iff.mp hb).1
  | ahead | notAhead => exact fun b hb _ hclosed => hclosed hb
  | star_some _ _ ih ih' =>
    intro b hb hc hclosed
    exact ih' hended b hb trivial fun _ =>
      ih hended b (Bool.and_eq_true_iff.mp hb).2 hc hclosed
  | again hskip _ _ ih ih' =>
    intro b hb _ hclosed
    obtain ⟨hstart, hend⟩ := Bool.and_eq_true_iff.mp hb
    exact ih' hended b hb trivial fun _ =>
      ih hended b hend (skips_again hg hskip) fun _ => (hclosed hstart).skip hg hskip
  | rule hs h => exact fun b hb hc _ => hended _ _ _ _ hb hc (.rule hs h)
  | rule_bare hs h => exact fun b hb hc _ => hended _ _ _ _ hb hc (.rule_bare hs h)

/-- Where a part stands that is guarded, the pattern does not match. -/
theorem Part.misses_of_guards [DecidableEq ρ] (hg : g.Orderly m) (hended : Ending g s q ended)
    (h : Part g s l k k' goal c c') :
    ∀ b, goal.guards ended l b = true → goal.Ready g s c → (b = true → Closed g s q c) →
      Misses g s q k := by
  induction h with
  | rule | word =>
    intro b hb hc hclosed
    simp only [Goal.guards, Pattern.guards, bne_self_eq_false, Bool.false_or] at hb
    exact hclosed hb _ hc
  | seq_front _ _ _ ih =>
    intro b hb hc hclosed
    exact ih b (Bool.and_eq_true_iff.mp hb).1 hc hclosed
  | seq_back h hskip _ ih =>
    intro b hb hc hclosed
    exact ih _ (Bool.and_eq_true_iff.mp hb).2 (skips_again hg hskip) fun hfirst =>
      (closed_of_ends hg hended h b hfirst hc hclosed).skip hg hskip
  | left _ ih =>
    intro b hb hc hclosed
    exact ih b (Bool.and_eq_true_iff.mp hb).1 hc hclosed
  | right _ _ ih =>
    intro b hb hc hclosed
    exact ih b (Bool.and_eq_true_iff.mp hb).2 hc hclosed
  | opt _ ih => exact fun b hb hc hclosed => ih b hb hc hclosed
  | star_first _ _ ih =>
    intro b hb hc hclosed
    exact ih _ hb hc fun hstart => hclosed (Bool.and_eq_true_iff.mp hstart).1
  | @star_more _ _ _ p _ _ _ _ h _ ih =>
    intro b hb hc hclosed
    -- What the first match ended with is what each further one starts with.
    have hends : (!(b && p.ends ended b) || p.ends ended (b && p.ends ended b)) = true := by
      cases b with
      | false => rfl
      | true => cases hp : p.ends ended true <;> simp [hp]
    refine ih _ (Bool.and_eq_true_iff.mpr ⟨hb, hends⟩) trivial fun hstart => ?_
    obtain ⟨hb, hp⟩ := Bool.and_eq_true_iff.mp hstart
    exact closed_of_ends hg hended h b hp hc hclosed
  | again_first hskip _ _ ih =>
    intro b hb _ hclosed
    exact ih b (Bool.and_eq_true_iff.mp hb).1 (skips_again hg hskip) fun hstart =>
      (hclosed hstart).skip hg hskip
  | again_more hskip h _ ih =>
    intro b hb _ hclosed
    refine ih b hb trivial fun hstart => closed_of_ends hg hended h b ?_ (skips_again hg hskip)
      fun hstart => (hclosed hstart).skip hg hskip
    show Pattern.ends ended _ b = true
    simpa [hstart] using (Bool.and_eq_true_iff.mp hb).2

end

/-! ## The rules that match -/

/-- The rules that match in the whole match of a rule from one cursor to another: in which setting
their bodies match, and between which cursors. -/
inductive Matched (g : Grammar ρ) (r₀ : ρ) (start stop : Cursor) : ρ → Setting → Cursor → Cursor → Prop
  | whole {ts : List (Tree ρ)} (h : Derives g {} (.once (.rule r₀)) start stop ts) :
      Matched g r₀ start stop r₀ (g.inside {} r₀) start stop
  | inner {r r' : ρ} {s : Setting} {c c' k k' : Cursor} (h : Matched g r₀ start stop r s c c')
      (hpart : Part g s (.rule r') k k' (.once (g.rule r).body) c c') :
      Matched g r₀ start stop r' (g.inside s r') k k'

/-- The body of a matched rule takes a word at a cursor. -/
def Reads (g : Grammar ρ) (r₀ : ρ) (start stop : Cursor) (w : List Char) (k : Cursor) : Prop :=
  ∃ r s c c' k', Matched g r₀ start stop r s c c' ∧
    Part g s (.word w) k k' (.once (g.rule r).body) c c'

namespace Matched

variable {r₀ r : ρ} {start stop : Cursor}

/-- A rule that matches inside of another one stands in its body. -/
theorem stands (h : Matched g r₀ start stop r s c c') :
    r = r₀ ∨ ∃ outer, .rule r ∈ (g.rule outer).body.leaves := by
  cases h with
  | whole => exact .inl rfl
  | inner _ hpart => exact .inr ⟨_, hpart.mem_leaves⟩

end Matched

end Grammar

end Lineage
