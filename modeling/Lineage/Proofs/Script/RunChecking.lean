/-
  Lineage.Proofs.Script.RunChecking

  When the reader takes a run of operators and operands.

  A run is taken if each of its parts is.  The expression that comes of it is legal if
  what its parts come to is, and every assignment in the run is to something that can be
  assigned.  The argument follows `climb` and `extend` through the run: each part is used
  once, in the order of the run, and what is used so far is again a run (`Taken`).
-/
import Mathlib.Tactic.Tauto
import Lineage.Proofs.Script.Checking
import Lineage.Proofs.Script.Runs

namespace Lineage.Script

section

variable {V : Finset String} {customErrors : Bool}

/-! ## Pieces -/

/-- How strong an operator is. -/
def Piece.strength : Piece → Nat
  | .operand _ => 0
  | .before strength _ | .between strength _ _ | .after strength _ => strength

/-- A piece is taken if nothing is wrong with its tree that the reader would find, and makes legal
expressions of legal ones if nothing is that the generator would find. -/
def Piece.Checked (V : Finset String) (customErrors : Bool) (t : Tree Rule) : Piece → Prop
  | .operand read => t.rule ∈ Rules.primaries ∧
      Checks V customErrors read [] (Everywhere (Readable customErrors) t) fun e =>
        (e.Legal ↔ Everywhere Proper t) ∧ (e.Assignable ↔ Assignable [t])
  | .before strength apply => t.rule ∈ Rules.prefixOps ∧
      strength = (if t.rule = .scatterAssign then Strength.assignment else Strength.sign) ∧
      ∀ e, Checks V customErrors (apply e) [] (Everywhere (Readable customErrors) t) fun e' =>
        (e'.Legal ↔ e.Legal ∧ Everywhere Proper t) ∧ ¬ e'.Assignable
  | .between strength _ combine => t.rule ∈ Rules.infixOps ∧
      Strength.conditional < strength ∧ strength < Strength.sign ∧
      Everywhere (Readable customErrors) t ∧ Everywhere Proper t ∧
      ∀ a b, ((combine a b).Legal ↔ a.Legal ∧ b.Legal) ∧ ¬ (combine a b).Assignable
  | .after strength apply => t.rule ∈ Rules.postfixOps ∧
      strength = (if t.rule = .assign then Strength.assignment
        else if t.rule = .condExpr then Strength.conditional else Strength.access) ∧
      Checks V customErrors apply [] (Everywhere (Readable customErrors) t) fun f => ∀ e,
        ((f e).Legal ↔ e.Legal ∧ Everywhere Proper t ∧ (t.rule = .assign → e.Assignable)) ∧
        ((f e).Assignable ↔ t.rule = .prop ∨ t.rule = .propExpr ∨ t.rule = .indexSingle ∧ e.Assignable)

/-- A run whose parts are taken as they should be. -/
structure Run (V : Finset String) (customErrors : Bool) (expecting : Bool) (run : List (Tree Rule)) :
    Prop where
  checked : ∀ t ∈ run, (piece t).Checked V customErrors t
  order : Rule.InRun expecting (run.map Tree.rule)

theorem pieces_eq_map (run : List (Tree Rule)) : pieces run = run.map piece := by
  induction run with
  | nil => rfl
  | cons t run ih => rw [pieces, ih, List.map_cons]

theorem disjoint_rules : ∀ r,
    (r ∈ Rules.prefixOps → r ∉ Rules.primaries ∧ r ∉ Rules.infixOps ∧ r ∉ Rules.postfixOps) ∧
    (r ∈ Rules.primaries → r ∉ Rules.infixOps ∧ r ∉ Rules.postfixOps) ∧
    (r ∈ Rules.infixOps → r ∉ Rules.postfixOps) := by
  intro r
  cases r <;> decide

namespace Run

variable {t : Tree Rule} {run : List (Tree Rule)}

theorem tail {expecting expecting' : Bool} (h : Run V customErrors expecting (t :: run))
    (horder : Rule.InRun expecting' (run.map Tree.rule)) : Run V customErrors expecting' run :=
  ⟨fun u hu => h.checked u (List.mem_cons_of_mem _ hu), horder⟩

/-- Where an operand is to come, it comes or a prefix operator does. -/
theorem expecting (h : Run V customErrors true (t :: run)) :
    (∃ read, piece t = .operand read ∧ Run V customErrors false run) ∨
      ∃ strength apply, piece t = .before strength apply ∧ Run V customErrors true run := by
  have hchecked := h.checked t List.mem_cons_self
  obtain ⟨hbefore, hprimary, -⟩ := disjoint_rules t.rule
  rcases h.order with ⟨hrule, horder⟩ | ⟨hrule, horder⟩
  · right
    cases hpiece : piece t with
    | before strength apply => exact ⟨strength, apply, rfl, h.tail horder⟩
    | operand | between | after =>
      rw [hpiece] at hchecked
      have := hbefore hrule
      exact absurd hchecked.1 (by tauto)
  · left
    cases hpiece : piece t with
    | operand read => exact ⟨read, rfl, h.tail horder⟩
    | before | between | after =>
      rw [hpiece] at hchecked
      exact absurd hchecked.1 (by tauto)

/-- Behind an operand comes an infix operator or a postfix operator. -/
theorem following (h : Run V customErrors false (t :: run)) :
    (∃ strength groupsRight combine, piece t = .between strength groupsRight combine ∧
      Run V customErrors true run) ∨
      ∃ strength apply, piece t = .after strength apply ∧ Run V customErrors false run := by
  have hchecked := h.checked t List.mem_cons_self
  obtain ⟨hbefore, hprimary, hbetween⟩ := disjoint_rules t.rule
  rcases h.order with ⟨hrule, horder⟩ | ⟨hrule, horder⟩
  · right
    cases hpiece : piece t with
    | after strength apply => exact ⟨strength, apply, rfl, h.tail horder⟩
    | operand | between | before =>
      rw [hpiece] at hchecked
      exact absurd hchecked.1 (by tauto)
  · left
    cases hpiece : piece t with
    | between strength groupsRight combine =>
      exact ⟨strength, groupsRight, combine, rfl, h.tail horder⟩
    | operand | before | after =>
      rw [hpiece] at hchecked
      exact absurd hchecked.1 (by tauto)

/-- How strong the operators behind an operand are at least. -/
theorem assignment_le (h : Run V customErrors false (t :: run)) :
    Strength.assignment ≤ (piece t).strength := by
  have hchecked := h.checked t List.mem_cons_self
  rcases h.following with ⟨strength, _, _, hpiece, -⟩ | ⟨strength, _, hpiece, -⟩
  · rw [hpiece] at hchecked ⊢
    exact Nat.le_of_lt (Nat.lt_trans (by decide) hchecked.2.1)
  · rw [hpiece] at hchecked ⊢
    show Strength.assignment ≤ strength
    rw [hchecked.2.1]
    split
    · exact Nat.le_refl _
    · split <;> decide

end Run

/-! ## Putting pieces together -/

/-- An operator that is applied behind its operand is taken if both are. -/
theorem attach_checks {base : Reading Expr} {apply : Reading (Expr → Expr)} {P Q : Prop}
    {R : Expr → Prop} {S : (Expr → Expr) → Prop} {T : Expr → Prop}
    (hbase : Checks V customErrors base [] P R) (happly : Checks V customErrors apply [] Q S)
    (h : ∀ e f, R e → S f → T (f e)) :
    Checks V customErrors (.attach base apply) [] (P ∧ Q) T := by
  intro seen scope hscope
  have hfirst := hbase seen scope hscope
  simp only [Reading.attach]
  cases hrun : base scope with
  | error e =>
    rw [hrun] at hfirst
    cases apply scope with
    | error e' => exact fun h => hfirst ⟨h.1.1, h.2⟩
    | ok r => exact fun h => hfirst ⟨h.1.1, h.2⟩
  | ok r =>
    obtain ⟨e, scope₁⟩ := r
    rw [hrun, List.append_nil] at hfirst
    obtain ⟨hP, hR, hscope₁⟩ := hfirst
    have hsecond := happly seen scope₁ hscope₁
    dsimp only
    cases hrun' : apply scope₁ with
    | error e' =>
      rw [hrun'] at hsecond
      exact fun h => hsecond ⟨h.1.2, h.2⟩
    | ok r =>
      rw [hrun'] at hsecond
      exact ⟨⟨hP, hsecond.1⟩, h _ _ hR hsecond.2.1, hsecond.2.2⟩

/-- What comes of a run is legal and can be assigned as the run says. -/
structure Taken (V : Finset String) (customErrors : Bool) (bound : Nat) (used rest : List (Tree Rule))
    (x : Reading Expr) : Prop where
  checks : Checks V customErrors x [] (EverywhereIn (Readable customErrors) used) fun e =>
    (e.Legal ↔ EverywhereIn Proper used ∧ AssignsPlaces used) ∧ (e.Assignable ↔ Assignable used)
  plain : rest ≠ [] → ∀ t ∈ used, t.rule ≠ .scatterAssign
  guarded : Strength.conditional ≤ bound → Guarded used

/-- The next operator is no stronger than a bound. -/
def Weaker (bound : Nat) (rest : List (Tree Rule)) : Prop :=
  ∀ t more, rest = t :: more → (piece t).strength ≤ bound

/-- A postfix operator that comes next takes all of what is used. -/
def Whole (used rest : List (Tree Rule)) : Prop :=
  ∀ t more, rest = t :: more → Strength.access ≤ (piece t).strength → Undivided used

section

variable {bound inner strength : Nat} {used used' seg rest : List (Tree Rule)} {t : Tree Rule}
  {x left right : Reading Expr}

theorem Weaker.eq_nil (h : Weaker bound rest) (hbound : bound < Strength.assignment)
    (hrest : Run V customErrors false rest) : rest = [] := by
  cases rest with
  | nil => rfl
  | cons t rest =>
    have hle := h t rest rfl
    have hge := hrest.assignment_le
    omega

/-- Nothing stands behind an operand that would take only a part of it. -/
theorem Weaker.whole (h : Weaker bound rest) (hbound : bound < Strength.access) : Whole used rest := by
  intro t more heq hstrong
  have := h t more heq
  omega

/-- An operand. -/
theorem taken_operand {read : Reading Expr}
    (h : (Piece.operand read).Checked V customErrors t) : Taken V customErrors bound [t] rest read := by
  obtain ⟨hrule, hread⟩ := h
  have hne : t.rule ≠ .scatterAssign ∧ t.rule ≠ .assign ∧ t.rule ≠ .condExpr := by
    refine ⟨?_, ?_, ?_⟩ <;> intro heq <;> exact absurd (heq ▸ hrule) (by decide)
  constructor
  · refine (hread.iff ?_).imp fun e he => ⟨?_, he.2⟩
    · rw [everywhereIn_cons, and_iff_left everywhereIn_nil]
    · rw [he.1, everywhereIn_cons, and_iff_left everywhereIn_nil]
      refine (and_iff_left ?_).symm
      have hsingle : AssignsPlaces ([] ++ [t]) ↔ _ := assignsPlaces_concat
      exact hsingle.mpr ⟨assignsPlaces_nil, fun h => absurd h hne.2.1⟩
  · intro _
    exact List.forall_mem_singleton.mpr hne.1
  · intro _
    exact Guarded.concat guarded_nil (by simp [weak, hne])

/-- A prefix operator and the run of its operand. -/
theorem taken_before {apply : Expr → Reading Expr}
    (h : (Piece.before strength apply).Checked V customErrors t)
    (hx : Taken V customErrors (strength - 1) used rest x) (hweaker : Weaker (strength - 1) rest)
    (hrest : Run V customErrors false rest) :
    Taken V customErrors bound (t :: used) rest (x >>= apply) := by
  obtain ⟨hrule, hstrength, happly⟩ := h
  have hheads : Heads t used := by
    refine ⟨.inl hrule, ?_⟩
    by_cases ht : t.rule = .scatterAssign
    · exact .inl ht
    · rw [if_neg ht] at hstrength
      exact .inr (hx.guarded (by rw [hstrength]; decide))
  constructor
  · refine ((hx.checks.bind fun e he => (happly e).imp fun e' he' => ?_).iff ?_)
    · constructor
      · rw [he'.1, he.1, everywhereIn_cons]
        have hplaces : AssignsPlaces ([] ++ t :: used) ↔ _ := assignsPlaces_append hheads
        rw [List.nil_append] at hplaces
        rw [hplaces, and_iff_right assignsPlaces_nil]
        exact ⟨fun ⟨⟨h, h'⟩, h''⟩ => ⟨⟨h'', h⟩, h'⟩, fun ⟨⟨h'', h⟩, h'⟩ => ⟨⟨h, h'⟩, h''⟩⟩
      · exact iff_of_false he'.2 fun h =>
          (not_undivided_append hheads : ¬ Undivided ([] ++ t :: used)) h.undivided
    · rw [everywhereIn_cons, and_comm]
  · intro hne
    refine List.forall_mem_cons.mpr ⟨fun ht => hne ?_, hx.plain hne⟩
    rw [if_pos ht] at hstrength
    exact hweaker.eq_nil (by rw [hstrength]; decide) hrest
  · intro _
    exact Guarded.append guarded_nil hheads

/-- An infix operator between two operands. -/
theorem taken_between {groupsRight : Bool} {combine : Expr → Expr → Expr}
    (h : (Piece.between strength groupsRight combine).Checked V customErrors t)
    (hleft : Taken V customErrors bound seg (t :: used ++ rest) left)
    (hinner : strength - 1 ≤ inner) (hright : Taken V customErrors inner used rest right) :
    Taken V customErrors bound (seg ++ t :: used) rest
      (do return combine (← left) (← right)) := by
  obtain ⟨hrule, hlow, -, hreadable, hproper, hcombine⟩ := h
  have hheads : Heads t used := ⟨.inr hrule, .inr (hright.guarded (by omega))⟩
  constructor
  · refine (hleft.checks.bind fun a ha => hright.checks.bind fun b hb => .pure ?_).iff ?_
    · constructor
      · rw [(hcombine a b).1, ha.1, hb.1, everywhereIn_append, everywhereIn_cons,
          assignsPlaces_append hheads, and_iff_right hproper]
        exact and_and_and_comm
      · exact iff_of_false (hcombine a b).2 fun h => not_undivided_append hheads h.undivided
    · rw [everywhereIn_append, everywhereIn_cons, and_iff_right hreadable, and_true]
  · intro hne
    have hseg := hleft.plain (List.cons_ne_nil _ _)
    refine List.forall_mem_append.mpr ⟨hseg, List.forall_mem_cons.mpr ⟨?_, hright.plain hne⟩⟩
    intro heq
    exact absurd (heq ▸ hrule) (by decide)
  · intro hbound
    exact (hleft.guarded hbound).append hheads

/-- A postfix operator behind an operand. -/
theorem taken_after {apply : Reading (Expr → Expr)}
    (h : (Piece.after strength apply).Checked V customErrors t) (hbound : bound < strength)
    (hleft : Taken V customErrors bound seg (t :: rest) left)
    (hwhole : Strength.access ≤ strength → Undivided seg) :
    Taken V customErrors bound (seg ++ [t]) rest (.attach left apply) ∧ Undivided (seg ++ [t]) := by
  obtain ⟨hrule, hstrength, happly⟩ := h
  have hplain := hleft.plain (List.cons_ne_nil _ _)
  -- An operator that is not weak takes all of the segment.
  have hundivided (hweak : weak t = false) : Undivided seg := by
    simp only [weak, Bool.or_eq_false_iff, decide_eq_false_iff_not] at hweak
    rw [if_neg hweak.1, if_neg hweak.2] at hstrength
    exact hwhole (Nat.le_of_eq hstrength.symm)
  have haccess {r : Rule} (hr : t.rule = r) (hstrong : r ≠ .assign ∧ r ≠ .condExpr) :
      Undivided seg :=
    hundivided (by simp [weak, hr, hstrong])
  constructor
  · constructor
    · refine (attach_checks hleft.checks happly fun e f he hf => ⟨?_, ?_⟩).iff ?_
      · rw [everywhereIn_append, everywhereIn_cons, and_iff_left everywhereIn_nil]
      · rw [(hf e).1, he.1, he.2, assignsPlaces_concat, assigned_of_plain hplain,
          everywhereIn_append, everywhereIn_cons, and_iff_left (everywhereIn_nil (P := Proper))]
        exact and_and_and_comm
      · rw [(hf e).2, he.2, assignable_concat hrule]
        constructor
        · rintro (hr | hr | ⟨hr, h⟩)
          · exact .inl ⟨.inl hr, haccess hr (by decide)⟩
          · exact .inl ⟨.inr hr, haccess hr (by decide)⟩
          · exact .inr ⟨hr, h⟩
        · rintro (⟨hr | hr, -⟩ | ⟨hr, h⟩)
          · exact .inl hr
          · exact .inr (.inl hr)
          · exact .inr (.inr ⟨hr, h⟩)
    · intro _
      exact List.forall_mem_append.mpr ⟨hplain, List.forall_mem_singleton.mpr (postfix_ne _ hrule).1⟩
    · intro hconditional
      refine (hleft.guarded hconditional).concat ?_
      -- A weak operator would be too weak for the bound.
      have hne : t.rule ≠ .assign ∧ t.rule ≠ .condExpr := by
        constructor
        · intro ht
          rw [if_pos ht] at hstrength
          have : Strength.assignment < Strength.conditional := by decide
          omega
        · intro ht
          rw [if_neg (by rw [ht]; decide), if_pos ht] at hstrength
          omega
      simp [weak, hne]
  · cases hweak : weak t with
    | true => exact undivided_of_weak hplain hrule hweak
    | false => exact (hundivided hweak).access hrule hweak

end

/-- `climb` and `extend` use a part of the run. -/
theorem climb_extend_checks (fuel : Nat) :
    (∀ bound run, Run V customErrors true run → 2 * run.length + 2 ≤ fuel →
      ∃ used rest, run = used ++ rest ∧ Run V customErrors false rest ∧ Weaker bound rest ∧
        (climb fuel bound (pieces run)).2 = pieces rest ∧
        Taken V customErrors bound used rest (climb fuel bound (pieces run)).1) ∧
    ∀ bound left seg run, Taken V customErrors bound seg run left → Whole seg run →
      Run V customErrors false run → 2 * run.length + 1 ≤ fuel →
      ∃ used rest, run = used ++ rest ∧ Run V customErrors false rest ∧ Weaker bound rest ∧
        (extend fuel bound left (pieces run)).2 = pieces rest ∧
        Taken V customErrors bound (seg ++ used) rest (extend fuel bound left (pieces run)).1 := by
  -- Both at once, on the fuel that they hand to each other.
  induction fuel with
  | zero =>
    constructor
    · intro bound run _ hfuel
      omega
    · intro bound left seg run _ _ _ hfuel
      omega
  | succ fuel ih =>
    obtain ⟨hclimb, hextend⟩ := ih
    constructor
    · intro bound run hrun hfuel
      cases run with
      | nil => exact hrun.order.elim
      | cons t run =>
        rw [List.length_cons] at hfuel
        have hchecked := hrun.checked t List.mem_cons_self
        rcases hrun.expecting with ⟨read, hpiece, hrest⟩ | ⟨strength, apply, hpiece, hrest⟩
        · rw [hpiece] at hchecked
          obtain ⟨used, rest, rfl, hrest', hweaker, hleft, htaken⟩ := hextend bound read [t] run
            (taken_operand hchecked) (fun _ _ _ _ => undivided_singleton hchecked.1) hrest (by omega)
          refine ⟨t :: used, rest, rfl, hrest', hweaker, ?_, ?_⟩
          · simp only [pieces, hpiece, climb]
            exact hleft
          · simp only [pieces, hpiece, climb]
            exact htaken
        · rw [hpiece] at hchecked
          obtain ⟨used, rest, rfl, hrest', hweaker, hleft, htaken⟩ :=
            hclimb (strength - 1) run hrest (by omega)
          have hstrong : strength - 1 < Strength.access := by
            rw [hchecked.2.1]
            split <;> decide
          rw [List.length_append] at hfuel
          obtain ⟨more, rest', rfl, hrest'', hweaker', hleft', htaken'⟩ := hextend bound _ _ rest
            (taken_before hchecked htaken hweaker hrest') (hweaker.whole hstrong) hrest' (by omega)
          refine ⟨t :: (used ++ more), rest', by simp, hrest'', hweaker', ?_, ?_⟩
          · simp only [pieces, hpiece, climb, hleft]
            exact hleft'
          · simp only [pieces, hpiece, climb, hleft]
            exact htaken'
    · intro bound left seg run htaken hwhole hrun hfuel
      cases run with
      | nil =>
        refine ⟨[], [], rfl, hrun, nofun, ?_, ?_⟩
        · simp only [pieces, extend]
        · simp only [pieces, extend, List.append_nil]
          exact htaken
      | cons t run =>
        rw [List.length_cons] at hfuel
        have hchecked := hrun.checked t List.mem_cons_self
        rcases hrun.following with ⟨strength, groupsRight, combine, hpiece, hrest⟩ |
          ⟨strength, apply, hpiece, hrest⟩
        · rw [hpiece] at hchecked
          by_cases hbound : bound < strength
          · obtain ⟨used, rest, rfl, hrest', hweaker, hright, htaken'⟩ :=
              hclimb (if groupsRight then strength - 1 else strength) run hrest (by omega)
            have hinner : strength - 1 ≤ if groupsRight then strength - 1 else strength := by
              split <;> omega
            have hstrong : (if groupsRight then strength - 1 else strength) < Strength.access := by
              have hsign : strength < Strength.sign := hchecked.2.2.1
              have : Strength.sign < Strength.access := by decide
              split <;> omega
            rw [List.length_append] at hfuel
            obtain ⟨more, rest', rfl, hrest'', hweaker', hleft', htaken''⟩ := hextend bound _ _ rest
              (taken_between hchecked htaken hinner htaken') (hweaker.whole hstrong) hrest' (by omega)
            refine ⟨t :: (used ++ more), rest', by simp, hrest'', hweaker', ?_, ?_⟩
            · simp only [pieces, hpiece, extend, if_pos hbound, hright]
              exact hleft'
            · simp only [pieces, hpiece, extend, if_pos hbound, hright]
              rw [List.append_assoc] at htaken''
              exact htaken''
          · refine ⟨[], t :: run, rfl, hrun, ?_, ?_, ?_⟩
            · rintro _ _ ⟨⟩
              rw [hpiece]
              exact Nat.le_of_not_lt hbound
            · simp only [pieces, hpiece, extend, if_neg hbound]
            · simp only [pieces, hpiece, extend, if_neg hbound, List.append_nil]
              exact htaken
        · rw [hpiece] at hchecked
          by_cases hbound : bound < strength
          · obtain ⟨htaken', hundivided⟩ := taken_after hchecked hbound htaken fun hstrong =>
              hwhole t run rfl (by rw [hpiece]; exact hstrong)
            obtain ⟨more, rest', rfl, hrest'', hweaker', hleft', htaken''⟩ := hextend bound _ _ run
              htaken' (fun _ _ _ _ => hundivided) hrest (by omega)
            refine ⟨t :: more, rest', rfl, hrest'', hweaker', ?_, ?_⟩
            · simp only [pieces, hpiece, extend, if_pos hbound]
              exact hleft'
            · simp only [pieces, hpiece, extend, if_pos hbound]
              rw [List.append_assoc] at htaken''
              exact htaken''
          · refine ⟨[], t :: run, rfl, hrun, ?_, ?_, ?_⟩
            · rintro _ _ ⟨⟩
              rw [hpiece]
              exact Nat.le_of_not_lt hbound
            · simp only [pieces, hpiece, extend, if_neg hbound]
            · simp only [pieces, hpiece, extend, if_neg hbound, List.append_nil]
              exact htaken

/-- A whole run is used up. -/
theorem readAll_checks {run : List (Tree Rule)} (h : Run V customErrors true run) :
    Checks V customErrors (Piece.readAll (pieces run)) [] (EverywhereIn (Readable customErrors) run)
      fun e => (e.Legal ↔ EverywhereIn Proper run ∧ AssignsPlaces run) ∧
        (e.Assignable ↔ Assignable run) := by
  obtain ⟨used, rest, rfl, hrest, hweaker, -, htaken⟩ :=
    (climb_extend_checks (2 * (pieces run).length + 2)).1 0 run h (by rw [pieces_eq_map, List.length_map])
  obtain rfl := hweaker.eq_nil (by decide) hrest
  rw [List.append_nil] at htaken ⊢
  exact htaken.checks

end

end Lineage.Script
