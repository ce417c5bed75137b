/-
  Lineage.Proofs.Script.Runs

  Runs of operators and operands, put together.

  What is said of a run in `Flaws` is said here of a run that goes on: with a postfix
  operator, or with a prefix or infix operator and what that one takes.  The latter takes
  no weak operator with it, other than behind a scattering assignment (`Guarded`).
-/
import Lineage.Proofs.Script.Flaws

namespace Lineage.Script

/-- Every weak operator in a run has a scattering assignment before it. -/
def Guarded (run : List (Tree Rule)) : Prop :=
  ∀ before t after, run = before ++ t :: after → weak t = true →
    ∃ s ∈ before, s.rule = .scatterAssign

/-- An operator with an operand behind it, and the run of that operand: all of it, or one without weak
operators. -/
def Heads (t : Tree Rule) (run : List (Tree Rule)) : Prop :=
  (t.rule ∈ Rules.prefixOps ∨ t.rule ∈ Rules.infixOps) ∧ (t.rule = .scatterAssign ∨ Guarded run)

section

variable {run used : List (Tree Rule)} {t : Tree Rule}

/-- Where an element of two lists in a row is. -/
theorem split_append {α : Type} {a b before after : List α} {x : α}
    (h : a ++ b = before ++ x :: after) :
    (∃ rest, a = before ++ x :: rest ∧ after = rest ++ b) ∨
      ∃ rest, before = a ++ rest ∧ b = rest ++ x :: after := by
  rcases List.append_eq_append_iff.mp h with ⟨rest, hbefore, hb⟩ | ⟨rest, ha, hb⟩
  · exact .inr ⟨rest, hbefore, hb⟩
  · cases rest with
    | nil => exact .inr ⟨[], by rw [ha, List.append_nil, List.append_nil], hb.symm⟩
    | cons y rest =>
      obtain ⟨rfl, rfl⟩ := List.cons.inj hb
      exact .inl ⟨rest, ha, rfl⟩

/-! ## What an assignment is to -/

theorem assigned_of_plain (h : ∀ t ∈ run, t.rule ≠ .scatterAssign) : assigned run = run := by
  rw [assigned, List.rtakeWhile_eq_self_iff]
  intro t ht
  exact decide_eq_true (h t ht)

/-- Nothing before a scattering assignment is assigned behind it. -/
theorem assigned_append (h : ∃ t ∈ used, t.rule = .scatterAssign) :
    assigned (run ++ used) = assigned used := by
  obtain ⟨t, ht, hrule⟩ := h
  rw [assigned, assigned, List.rtakeWhile, List.rtakeWhile, List.reverse_append,
    List.takeWhile_append, if_neg]
  intro hall
  have hself := (List.takeWhile_prefix _).eq_of_length hall
  have := List.takeWhile_eq_self_iff.mp hself t (List.mem_reverse.mpr ht)
  rw [decide_eq_true_eq] at this
  exact this hrule

/-- A postfix operator behind a run. -/
theorem assignsPlaces_concat : AssignsPlaces (run ++ [t]) ↔
    AssignsPlaces run ∧ (t.rule = .assign → Assignable (assigned run)) := by
  constructor
  · intro h
    refine ⟨fun before sign after hrun hsign => ?_, fun ht => h run t [] rfl ht⟩
    exact h before sign (after ++ [t]) (by rw [hrun, List.append_assoc]; rfl) hsign
  · rintro ⟨hrun, ht⟩ before sign after heq hsign
    rcases split_append heq with ⟨rest, rfl, rfl⟩ | ⟨rest, rfl, hrest⟩
    · exact hrun before sign rest rfl hsign
    · cases rest with
      | nil =>
        obtain ⟨rfl, rfl⟩ := List.cons.inj hrest
        rw [List.append_nil]
        exact ht hsign
      | cons u rest => exact absurd (List.cons.inj hrest).2 (by simp)

theorem assigned_cons {before : List (Tree Rule)} (ht : t.rule = .scatterAssign) :
    assigned (t :: before) = assigned before := by
  have hstop : [t].takeWhile (fun u => decide (u.rule ≠ .scatterAssign)) = [] :=
    List.takeWhile_cons_of_neg (by simpa using ht)
  rw [assigned, assigned, List.rtakeWhile, List.rtakeWhile, List.reverse_cons, List.takeWhile_append,
    hstop, List.append_nil]
  split
  · rename_i hall
    rw [(List.takeWhile_prefix _).eq_of_length hall]
  · rfl

/-- What is assigned in the operand of an operator does not depend on what is before that. -/
theorem assigned_operand {before : List (Tree Rule)}
    (h : t.rule = .scatterAssign ∨ ∃ s ∈ before, s.rule = .scatterAssign) :
    assigned (run ++ t :: before) = assigned before := by
  rcases h with ht | hbefore
  · rw [assigned_append ⟨t, List.mem_cons_self, ht⟩, assigned_cons ht]
  · rw [← List.singleton_append, ← List.append_assoc, assigned_append hbefore]

theorem operator_ne_assign : ∀ r, r ∈ Rules.prefixOps ∨ r ∈ Rules.infixOps →
    r ≠ .assign ∧ r ≠ .condExpr := by
  intro r hr
  constructor
  · rintro rfl
    exact absurd hr (by decide)
  · rintro rfl
    exact absurd hr (by decide)

/-- An operator and its operand behind a run. -/
theorem assignsPlaces_append (h : Heads t used) :
    AssignsPlaces (run ++ t :: used) ↔ AssignsPlaces run ∧ AssignsPlaces used := by
  obtain ⟨hoperator, hused⟩ := h
  have hscatter {before after : List (Tree Rule)} {sign : Tree Rule}
      (heq : used = before ++ sign :: after) (hsign : sign.rule = .assign) :
      t.rule = .scatterAssign ∨ ∃ s ∈ before, s.rule = .scatterAssign :=
    hused.imp id fun hguarded => hguarded before sign after heq (by rw [weak, hsign]; rfl)
  constructor
  · intro h
    constructor
    · intro before sign after hrun hsign
      exact h before sign (after ++ t :: used) (by rw [hrun, List.append_assoc]; rfl) hsign
    · intro before sign after hrun hsign
      have hsame : assigned (run ++ t :: before) = assigned before := assigned_operand (hscatter hrun hsign)
      rw [← hsame]
      exact h (run ++ t :: before) sign after (by rw [hrun, List.append_assoc]; rfl) hsign
  · rintro ⟨hrun, hmore⟩ before sign after heq hsign
    rcases split_append heq with ⟨rest, rfl, rfl⟩ | ⟨rest, rfl, hrest⟩
    · exact hrun before sign rest rfl hsign
    · cases rest with
      | nil =>
        obtain ⟨rfl, rfl⟩ := List.cons.inj hrest
        exact absurd hsign (operator_ne_assign _ hoperator).1
      | cons u rest =>
        obtain ⟨rfl, hused⟩ := List.cons.inj hrest
        rw [assigned_operand (hscatter hused hsign)]
        exact hmore rest sign after hused hsign

/-! ## What a postfix operator takes -/

theorem postfix_ne : ∀ r ∈ Rules.postfixOps,
    r ≠ .scatterAssign ∧ r ∉ Rules.prefixOps ∧ r ∉ Rules.infixOps ∧ r ∉ Rules.primaries := by
  decide

theorem primary_ne : ∀ r ∈ Rules.primaries,
    r ≠ .scatterAssign ∧ r ∉ Rules.prefixOps ∧ r ∉ Rules.infixOps := by
  decide

theorem undivided_singleton (ht : t.rule ∈ Rules.primaries) : Undivided [t] := by
  obtain ⟨hscatter, hbefore, hbetween⟩ := primary_ne _ ht
  refine ⟨List.forall_mem_singleton.mpr hscatter, fun u hu => ?_⟩
  obtain rfl := List.mem_singleton.mp ((List.rtakeWhile_suffix _ _).subset hu)
  exact ⟨hbefore, hbetween⟩

/-- An operator that is not weak takes what a postfix operator before it would take. -/
theorem Undivided.access (h : Undivided run) (ht : t.rule ∈ Rules.postfixOps) (hweak : weak t = false) :
    Undivided (run ++ [t]) := by
  obtain ⟨hscatter, hbefore, hbetween, -⟩ := postfix_ne _ ht
  refine ⟨List.forall_mem_append.mpr ⟨h.1, List.forall_mem_singleton.mpr hscatter⟩, ?_⟩
  rw [List.rtakeWhile_concat_pos _ _ _ (by rw [hweak]; rfl)]
  exact List.forall_mem_append.mpr ⟨h.2, List.forall_mem_singleton.mpr ⟨hbefore, hbetween⟩⟩

/-- A weak operator takes everything. -/
theorem undivided_of_weak (h : ∀ t ∈ run, t.rule ≠ .scatterAssign) (ht : t.rule ∈ Rules.postfixOps)
    (hweak : weak t = true) : Undivided (run ++ [t]) := by
  refine ⟨List.forall_mem_append.mpr ⟨h, List.forall_mem_singleton.mpr (postfix_ne _ ht).1⟩, ?_⟩
  rw [List.rtakeWhile_concat_neg _ _ _ (by rw [hweak]; decide)]
  nofun

/-- A postfix operator takes only the last operand of an operator. -/
theorem not_undivided_append (h : Heads t used) : ¬ Undivided (run ++ t :: used) := by
  rintro ⟨hplain, hinside⟩
  obtain ⟨hoperator, hused⟩ := h
  obtain ⟨hassign, hcond⟩ := operator_ne_assign _ hoperator
  have ht : weak t = false := by simp [weak, hassign, hcond]
  have hplainUsed : ∀ u ∈ t :: used, u.rule ≠ .scatterAssign :=
    fun u hu => hplain u (List.mem_append_right _ hu)
  have hguarded : Guarded used := hused.resolve_left (hplainUsed t List.mem_cons_self)
  have hstrong : ∀ u ∈ (t :: used).reverse, (!weak u) = true := by
    intro u hu
    rw [Bool.not_eq_true']
    rcases List.mem_cons.mp (List.mem_reverse.mp hu) with rfl | hu
    · exact ht
    · obtain ⟨before, after, rfl⟩ := List.append_of_mem hu
      refine Bool.eq_false_iff.mpr fun hweak => ?_
      obtain ⟨s, hs, hrule⟩ := hguarded before u after rfl hweak
      exact hplainUsed s (List.mem_cons_of_mem _ (List.mem_append_left _ hs)) hrule
  have hmem : t ∈ (run ++ t :: used).rtakeWhile fun u => !weak u := by
    rw [List.rtakeWhile, List.mem_reverse, List.reverse_append, List.takeWhile_append_of_pos hstrong]
    exact List.mem_append_left _ (List.mem_reverse.mpr List.mem_cons_self)
  obtain ⟨hbefore, hbetween⟩ := hinside t hmem
  exact hoperator.elim hbefore hbetween

theorem Assignable.undivided (h : Assignable run) : Undivided run := by
  induction h with
  | name => exact undivided_singleton (show Rule.atom ∈ Rules.primaries by decide)
  | parens => exact undivided_singleton (show Rule.parenExpr ∈ Rules.primaries by decide)
  | property ht h =>
    rcases ht with ht | ht
    · exact h.access (by rw [ht]; decide) (by simp [weak, ht])
    · exact h.access (by rw [ht]; decide) (by simp [weak, ht])
  | element ht _ ih => exact ih.access (by rw [ht]; decide) (by simp [weak, ht])

theorem assignable_concat (ht : t.rule ∈ Rules.postfixOps) : Assignable (run ++ [t]) ↔
    ((t.rule = .prop ∨ t.rule = .propExpr) ∧ Undivided run) ∨
      (t.rule = .indexSingle ∧ Assignable run) := by
  constructor
  · intro h
    generalize heq : run ++ [t] = whole at h
    cases h with
    | name =>
      rcases List.append_eq_singleton_iff.mp heq with ⟨-, hlast⟩ | ⟨-, hlast⟩
      · obtain rfl := (List.cons.inj hlast).1
        exact absurd ht (show Rule.atom ∉ Rules.postfixOps by decide)
      · cases hlast
    | parens =>
      rcases List.append_eq_singleton_iff.mp heq with ⟨-, hlast⟩ | ⟨-, hlast⟩
      · obtain rfl := (List.cons.inj hlast).1
        exact absurd ht (show Rule.parenExpr ∉ Rules.postfixOps by decide)
      · cases hlast
    | property hrule h =>
      obtain ⟨rfl, hlast⟩ := List.append_inj' heq rfl
      obtain rfl := (List.cons.inj hlast).1
      exact .inl ⟨hrule, h⟩
    | element hrule h =>
      obtain ⟨rfl, hlast⟩ := List.append_inj' heq rfl
      obtain rfl := (List.cons.inj hlast).1
      exact .inr ⟨hrule, h⟩
  · rintro (⟨hrule, h⟩ | ⟨hrule, h⟩)
    · exact .property hrule h
    · exact .element hrule h

/-- An operator and its operand bring no weak operator that has no scattering assignment before it. -/
theorem Guarded.append (hrun : Guarded run) (h : Heads t used) : Guarded (run ++ t :: used) := by
  obtain ⟨hoperator, hused⟩ := h
  intro before u after heq hu
  rcases split_append heq with ⟨rest, rfl, rfl⟩ | ⟨rest, rfl, hrest⟩
  · exact hrun before u rest rfl hu
  · cases rest with
    | nil =>
      obtain ⟨rfl, rfl⟩ := List.cons.inj hrest
      obtain ⟨hassign, hcond⟩ := operator_ne_assign _ hoperator
      simp [weak, hassign, hcond] at hu
    | cons t' rest =>
      obtain ⟨rfl, hmore⟩ := List.cons.inj hrest
      rcases hused with hscatter | hguarded
      · exact ⟨t, List.mem_append_right _ List.mem_cons_self, hscatter⟩
      · obtain ⟨s, hs, hrule⟩ := hguarded rest u after hmore hu
        exact ⟨s, List.mem_append_right _ (List.mem_cons_of_mem _ hs), hrule⟩

/-- Nor does a postfix operator that is not weak. -/
theorem Guarded.concat (hrun : Guarded run) (ht : weak t = false) : Guarded (run ++ [t]) := by
  intro before u after heq hu
  rcases split_append heq with ⟨rest, rfl, rfl⟩ | ⟨rest, rfl, hrest⟩
  · exact hrun before u rest rfl hu
  · cases rest with
    | nil =>
      obtain ⟨rfl, rfl⟩ := List.cons.inj hrest
      rw [ht] at hu
      cases hu
    | cons t' rest => exact absurd (List.cons.inj hrest).2 (by simp)

theorem guarded_nil : Guarded [] := by
  intro before t after h
  exact absurd h (by simp)

theorem assignsPlaces_nil : AssignsPlaces [] := by
  intro before sign after h
  exact absurd h (by simp)

end

end Lineage.Script
