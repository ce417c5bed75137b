/-
  Lineage.Proofs.Program.Extents

  Which statement an instruction belongs to, and which one its line is taken from.

  `Stmt.extents` lists the statements of a script in the order of their code, each with
  the places that its code fills.  An instruction was generated for the innermost of the
  statements whose code it is in (`innermost`).  What a program notes of statements is
  only where they start, so that the line of an instruction is that of the statement
  which started last before it (`latest`).  The two are the same until that statement
  ends: what comes after a nested block is told the line of a statement that is over.

  Of all code after a nested block only the condition of a later arm of a branch can
  raise an error (`Extent.Resumes`).
-/
import Mathlib.Data.List.TakeWhile
import Lineage.Proofs.Program.Spans

namespace Lineage.Script

/-- The places that the code of a statement fills. -/
structure Extent where
  first : Nat
  /-- The place after the last one. -/
  stop : Nat
  line : Nat
  /-- Where the conditions of the second and of further arms lie, if it is a branch. -/
  later : List (Nat × Nat)

namespace Extent

/-- A place is in the code of a statement, or of one nested in it. -/
def Covers (e : Extent) (pc : Nat) : Prop := e.first ≤ pc ∧ pc < e.stop

/-- A place is in the condition of an arm that comes after the body of another one. -/
def Resumes (e : Extent) (pc : Nat) : Prop := ∃ r ∈ e.later, r.1 ≤ pc ∧ pc < r.2

instance (e : Extent) (pc : Nat) : Decidable (e.Covers pc) :=
  inferInstanceAs (Decidable (_ ∧ _))

instance (e : Extent) (pc : Nat) : Decidable (e.Resumes pc) :=
  inferInstanceAs (Decidable (∃ r ∈ e.later, _))

/-- What a program notes of a statement. -/
def span (e : Extent) : Nat × Nat := (e.first, e.line)

end Extent

/-! ## Statements and their places -/

/-- Where the conditions of the arms of a branch lie. -/
def conditions (σ : Shape) (i : Nat) : List (Expr × List Stmt) → List (Nat × Nat)
  | [] => []
  | (condition, body) :: rest =>
      let stop := i + (condition.shapes σ).length
      (i, stop) :: conditions σ (stop + 1 + (blockShapes σ body).length + 1) rest

/-- The conditions that come after the body of another arm. -/
def StmtNode.later (σ : Shape) (i : Nat) : StmtNode → List (Nat × Nat)
  | .branch arms _ => (conditions σ i arms).tail
  | _ => []

mutual

/-- The statements in a statement whose code starts at `i`, in shape `σ`, itself first. -/
def Stmt.extents (σ : Shape) (i : Nat) : Stmt → List Extent
  | .mk line _ node =>
      ⟨i, i + (node.shapes σ).length, line, node.later σ i⟩ :: StmtNode.extents σ i node

def StmtNode.extents (σ : Shape) (i : Nat) : StmtNode → List Extent
  | .branch arms otherwise => armsExtents σ i arms ++
      (match otherwise with
        | some body => blockExtents σ (i + (armsShapes σ arms).length) body
        | none => [])
  | .forList _ source body => blockExtents (σ.up 2) (i + (source.shapes σ).length + 2) body
  | .forRange _ first last body =>
      blockExtents (σ.up 2) (i + (first.shapes σ).length + (last.shapes (σ.up 1)).length + 1) body
  | .while condition body => blockExtents σ (i + (condition.shapes σ).length + 1) body
  | .try body handlers =>
      let start := i + (catchesShapes σ handlers).length + 1
      blockExtents σ.enter start body ++
        handlersExtents σ (start + (blockShapes σ.enter body).length + 1) handlers
  | .break | .continue | .return _ | .expr _ => []

def blockExtents (σ : Shape) (i : Nat) : List Stmt → List Extent
  | [] => []
  | stmt :: rest => Stmt.extents σ i stmt ++ blockExtents σ (i + (stmt.shapes σ).length) rest

def armsExtents (σ : Shape) (i : Nat) : List (Expr × List Stmt) → List Extent
  | [] => []
  | (condition, body) :: rest =>
      let start := i + (condition.shapes σ).length + 1
      blockExtents σ start body ++ armsExtents σ (start + (blockShapes σ body).length + 1) rest

def handlersExtents (σ : Shape) (i : Nat) : List Handler → List Extent
  | [] => []
  | .mk name _ body :: rest =>
      let start := i + (receiveShapes σ name).length
      blockExtents σ start body ++ handlersExtents σ (start + (blockShapes σ body).length + 1) rest

end

/-- All statements of a script. -/
def SyntaxTree.extents (tree : SyntaxTree) : List Extent :=
  blockExtents (.plain 0 []) 0 tree.statements

/-- The innermost statement whose code a place is in. -/
def innermost (extents : List Extent) (pc : Nat) : Option Extent :=
  (extents.filter fun e => e.Covers pc).getLast?

/-- The statement that started last, up to a place. -/
def latest (extents : List Extent) (pc : Nat) : Option Extent :=
  (extents.takeWhile fun e => e.first ≤ pc).getLast?

/-! ## Statements start where the program says -/

mutual

theorem stmt_extents_span (stmt : Stmt) (σ : Shape) (i fors tries : Nat) :
    (stmt.extents σ i).map Extent.span = (stmt.starts σ i fors tries).map Start.span := by
  obtain ⟨line, column, node⟩ := stmt
  simp only [Stmt.extents, Stmt.starts, List.map_cons]
  rw [stmtNode_extents_span node σ i fors tries]
  rfl

theorem stmtNode_extents_span (node : StmtNode) (σ : Shape) (i fors tries : Nat) :
    (node.extents σ i).map Extent.span = (node.starts σ i fors tries).map Start.span := by
  cases node with
  | branch arms otherwise =>
    cases otherwise with
    | none =>
      simp only [StmtNode.extents, StmtNode.starts, List.append_nil]
      exact arms_extents_span arms σ i fors tries
    | some body =>
      simp only [StmtNode.extents, StmtNode.starts, List.map_append]
      rw [arms_extents_span arms σ i fors tries, block_extents_span body σ _ fors tries]
  | forList name source body =>
    simp only [StmtNode.extents, StmtNode.starts]
    exact block_extents_span body _ _ (fors + 1) tries
  | forRange name first last body =>
    simp only [StmtNode.extents, StmtNode.starts]
    exact block_extents_span body _ _ (fors + 1) tries
  | «while» condition body =>
    simp only [StmtNode.extents, StmtNode.starts]
    exact block_extents_span body σ _ fors tries
  | «try» body handlers =>
    simp only [StmtNode.extents, StmtNode.starts, List.map_append]
    rw [block_extents_span body σ.enter _ fors (tries + 1),
      handlers_extents_span handlers σ _ fors tries]
  | «break» | «continue» | «return» value | expr e => rfl

theorem block_extents_span (stmts : List Stmt) (σ : Shape) (i fors tries : Nat) :
    (blockExtents σ i stmts).map Extent.span = (blockStarts σ i fors tries stmts).map Start.span := by
  match stmts with
  | [] => rfl
  | stmt :: rest =>
    simp only [blockExtents, blockStarts, List.map_append]
    rw [stmt_extents_span stmt σ i fors tries, block_extents_span rest σ _ fors tries]

theorem arms_extents_span (arms : List (Expr × List Stmt)) (σ : Shape) (i fors tries : Nat) :
    (armsExtents σ i arms).map Extent.span = (armsStarts σ i fors tries arms).map Start.span := by
  match arms with
  | [] => rfl
  | (condition, body) :: rest =>
    simp only [armsExtents, armsStarts, List.map_append]
    rw [block_extents_span body σ _ fors tries, arms_extents_span rest σ _ fors tries]

theorem handlers_extents_span (handlers : List Handler) (σ : Shape) (i fors tries : Nat) :
    (handlersExtents σ i handlers).map Extent.span =
      (handlersStarts σ i fors tries handlers).map Start.span := by
  match handlers with
  | [] => rfl
  | .mk name codes body :: rest =>
    simp only [handlersExtents, handlersStarts, List.map_append]
    rw [block_extents_span body σ _ fors tries, handlers_extents_span rest σ _ fors tries]

end

/-- The line of a place is that of the statement that started last before it. -/
theorem SyntaxTree.lineOf_eq {tree : SyntaxTree} {p : Program} (h : tree.compile = .ok p) (pc : Nat) :
    p.lineOf pc = ((latest tree.extents pc).map Extent.line).getD 1 := by
  have hspans : p.spans = tree.extents.map Extent.span := by
    rw [SyntaxTree.spans_eq h]
    exact (block_extents_span tree.statements _ 0 0 0).symm
  rw [Program.lineOf, hspans, List.takeWhile_map, List.getLast?_map, Option.map_map]
  rfl

/-! ## Statements lie inside one another -/

/-- The code of a statement lies between two places. -/
structure Extent.Within (i j : Nat) (e : Extent) : Prop where
  starts : i ≤ e.first
  ordered : e.first ≤ e.stop
  ends : e.stop ≤ j

namespace Extent.Within

variable {i j i' j' pc : Nat} {e : Extent}

theorem mono (h : e.Within i j) (hi : i' ≤ i) (hj : j ≤ j') : e.Within i' j' :=
  ⟨Nat.le_trans hi h.starts, h.ordered, Nat.le_trans h.ends hj⟩

theorem lt_first (h : e.Within i j) (hpc : pc < i) : pc < e.first := Nat.lt_of_lt_of_le hpc h.starts

theorem stop_le (h : e.Within i j) (hpc : j ≤ pc) : e.stop ≤ pc := Nat.le_trans h.ends hpc

theorem not_covers_before (h : e.Within i j) (hpc : pc < i) : ¬ e.Covers pc := fun hcovers =>
  Nat.not_le_of_lt (h.lt_first hpc) hcovers.1

theorem not_covers_after (h : e.Within i j) (hpc : j ≤ pc) : ¬ e.Covers pc := fun hcovers =>
  Nat.not_le_of_lt hcovers.2 (h.stop_le hpc)

end Extent.Within

/-- All code of the first statements is in one piece and all of the other ones in another. -/
theorem forall_within_append {E₁ E₂ : List Extent} {i j i₁ j₁ i₂ j₂ : Nat}
    (h₁ : ∀ e ∈ E₁, e.Within i₁ j₁) (h₂ : ∀ e ∈ E₂, e.Within i₂ j₂)
    (hi₁ : i ≤ i₁) (hj₁ : j₁ ≤ j) (hi₂ : i ≤ i₂) (hj₂ : j₂ ≤ j) :
    ∀ e ∈ E₁ ++ E₂, e.Within i j := by
  intro e he
  rcases List.mem_append.mp he with he | he
  · exact (h₁ e he).mono hi₁ hj₁
  · exact (h₂ e he).mono hi₂ hj₂

mutual

theorem stmt_within (stmt : Stmt) (σ : Shape) (i : Nat) :
    ∀ e ∈ stmt.extents σ i, e.Within i (i + (stmt.shapes σ).length) := by
  obtain ⟨line, column, node⟩ := stmt
  simp only [Stmt.extents, Stmt.shapes]
  intro e he
  rcases List.mem_cons.mp he with rfl | he
  · exact ⟨Nat.le_refl i, Nat.le_add_right i _, Nat.le_refl _⟩
  · exact stmtNode_within node σ i e he

theorem stmtNode_within (node : StmtNode) (σ : Shape) (i : Nat) :
    ∀ e ∈ node.extents σ i, e.Within i (i + (node.shapes σ).length) := by
  cases node with
  | branch arms otherwise =>
    cases otherwise with
    | none =>
      simp only [StmtNode.extents, StmtNode.shapes, List.append_nil]
      exact arms_within arms σ i
    | some body =>
      simp only [StmtNode.extents, StmtNode.shapes, List.length_append]
      apply forall_within_append (arms_within arms σ i) (block_within body σ _)
      all_goals omega
  | forList name source body =>
    simp only [StmtNode.extents, StmtNode.shapes, List.length_append, List.length_cons]
    intro e he
    exact (block_within body _ _ e he).mono (by omega) (by omega)
  | forRange name first last body =>
    simp only [StmtNode.extents, StmtNode.shapes, List.length_append, List.length_cons]
    intro e he
    exact (block_within body _ _ e he).mono (by omega) (by omega)
  | «while» condition body =>
    simp only [StmtNode.extents, StmtNode.shapes, List.length_append, List.length_cons]
    intro e he
    exact (block_within body _ _ e he).mono (by omega) (by omega)
  | «try» body handlers =>
    simp only [StmtNode.extents, StmtNode.shapes, List.length_append, List.length_cons]
    apply forall_within_append (block_within body _ _) (handlers_within handlers σ _)
    all_goals omega
  | «break» | «continue» | «return» value | expr e =>
    simp only [StmtNode.extents]
    intro e he
    cases he

theorem block_within (stmts : List Stmt) (σ : Shape) (i : Nat) :
    ∀ e ∈ blockExtents σ i stmts, e.Within i (i + (blockShapes σ stmts).length) := by
  match stmts with
  | [] =>
    simp only [blockExtents]
    intro e he
    cases he
  | stmt :: rest =>
    simp only [blockExtents, blockShapes, List.length_append]
    apply forall_within_append (stmt_within stmt σ i) (block_within rest σ _)
    all_goals omega

theorem arms_within (arms : List (Expr × List Stmt)) (σ : Shape) (i : Nat) :
    ∀ e ∈ armsExtents σ i arms, e.Within i (i + (armsShapes σ arms).length) := by
  match arms with
  | [] =>
    simp only [armsExtents]
    intro e he
    cases he
  | (condition, body) :: rest =>
    simp only [armsExtents, armsShapes, List.length_append, List.length_cons]
    apply forall_within_append (block_within body σ _) (arms_within rest σ _)
    all_goals omega

theorem handlers_within (handlers : List Handler) (σ : Shape) (i : Nat) :
    ∀ e ∈ handlersExtents σ i handlers, e.Within i (i + (handlersShapes σ handlers).length) := by
  match handlers with
  | [] =>
    simp only [handlersExtents]
    intro e he
    cases he
  | .mk name codes body :: [] =>
    simp only [handlersExtents, handlersShapes, List.append_nil, List.length_append]
    intro e he
    exact (block_within body σ _ e he).mono (by omega) (by omega)
  | .mk name codes body :: handler :: rest =>
    rw [handlersExtents, handlersShapes]
    simp only [List.isEmpty_cons, Bool.false_eq_true, if_false, List.length_append, List.length_cons]
    apply forall_within_append (block_within body σ _) (handlers_within (handler :: rest) σ _)
    all_goals omega

end

/-! ## The statement that a line is taken from -/

/-- At a place, `e` is the innermost statement and `f` the one that started last.  They are the same,
or the place is in the condition of a later arm of `e` and `f`, which is nested in `e`, is over. -/
structure Told (E : List Extent) (pc : Nat) (e f : Extent) : Prop where
  inner : innermost E pc = some e
  least : ∀ g ∈ E, g.Covers pc → g.first ≤ e.first ∧ e.stop ≤ g.stop
  last : latest E pc = some f
  nested : f = e ∨ e.Resumes pc ∧ e.first ≤ f.first ∧ f.stop ≤ pc

/-- Some statement is the innermost one at a place, and some statement gives it its line. -/
def Traced (E : List Extent) (pc : Nat) : Prop := ∃ e f, Told E pc e f

section

variable {E E₁ E₂ : List Extent} {pc : Nat} {e f : Extent}

theorem innermost_mem (h : innermost E pc = some e) : e ∈ E ∧ e.Covers pc := by
  have hmem := List.mem_filter.mp (List.mem_of_getLast? h)
  exact ⟨hmem.1, of_decide_eq_true hmem.2⟩

theorem latest_mem (h : latest E pc = some f) : f ∈ E ∧ f.first ≤ pc := by
  have hmem := List.mem_of_getLast? h
  have hstarted := List.mem_takeWhile_imp hmem
  exact ⟨(List.takeWhile_sublist _).mem hmem, of_decide_eq_true hstarted⟩

/-- No statement covers a place. -/
theorem innermost_eq_none (h : ∀ g ∈ E, ¬ g.Covers pc) : (E.filter fun g => g.Covers pc) = [] := by
  rw [List.filter_eq_nil_iff]
  intro g hg hcovers
  exact h g hg (of_decide_eq_true hcovers)

/-- No statement has started up to a place. -/
theorem latest_eq_none (h : ∀ g ∈ E, pc < g.first) : (E.takeWhile fun g => g.first ≤ pc) = [] := by
  cases E with
  | nil => rfl
  | cons g rest =>
    apply List.takeWhile_cons_of_neg
    rw [decide_eq_true_eq]
    exact Nat.not_le_of_lt (h g List.mem_cons_self)

namespace Traced

variable {i j : Nat}

/-- Statements that start after a place do not matter for it. -/
theorem append_left (h : Traced E₁ pc) (hwithin : ∀ g ∈ E₂, g.Within i j) (hpc : pc < i) :
    Traced (E₁ ++ E₂) pc := by
  obtain ⟨e, f, h⟩ := h
  refine ⟨e, f, ?_, ?_, ?_, h.nested⟩
  · rw [innermost, List.filter_append,
      innermost_eq_none fun g hg => (hwithin g hg).not_covers_before hpc, List.append_nil]
    exact h.inner
  · intro g hg hcovers
    rcases List.mem_append.mp hg with hg | hg
    · exact h.least g hg hcovers
    · exact absurd hcovers ((hwithin g hg).not_covers_before hpc)
  · rw [latest, List.takeWhile_append, latest_eq_none fun g hg => (hwithin g hg).lt_first hpc,
      List.append_nil]
    -- Whether all of the first ones have started or not, they are those that have.
    split
    · rename_i hall
      rw [← (List.takeWhile_prefix _).eq_of_length hall]
      exact h.last
    · exact h.last

/-- Statements that are over before a place do not matter for it, once another one has started. -/
theorem append_right (h : Traced E₂ pc) (hwithin : ∀ g ∈ E₁, g.Within i j) (hpc : j ≤ pc) :
    Traced (E₁ ++ E₂) pc := by
  obtain ⟨e, f, h⟩ := h
  refine ⟨e, f, ?_, ?_, ?_, h.nested⟩
  · rw [innermost, List.filter_append,
      innermost_eq_none fun g hg => (hwithin g hg).not_covers_after hpc]
    exact h.inner
  · intro g hg hcovers
    rcases List.mem_append.mp hg with hg | hg
    · exact absurd hcovers ((hwithin g hg).not_covers_after hpc)
    · exact h.least g hg hcovers
  · have hstarted : E₁.takeWhile (fun g => g.first ≤ pc) = E₁ := by
      rw [List.takeWhile_eq_self_iff]
      intro g hg
      exact decide_eq_true (Nat.le_trans (hwithin g hg).ordered ((hwithin g hg).stop_le hpc))
    have hlast := h.last
    rw [latest] at hlast
    rw [latest, List.takeWhile_append, if_pos (congrArg List.length hstarted), List.getLast?_append,
      hlast]
    rfl

end Traced

/-- Where a place of a statement lies: before the statements that are nested in it, in one of them,
or in a condition that comes after some. -/
inductive Placed (E : List Extent) (later : List (Nat × Nat)) (pc : Nat) : Prop
  | before (h : ∀ g ∈ E, pc < g.first)
  | inside (h : Traced E pc)
  | between (hlater : ∃ r ∈ later, r.1 ≤ pc ∧ pc < r.2) (h : ∀ g ∈ E, ¬ g.Covers pc)

/-- A place of a statement, seen from outside the statement. -/
theorem Placed.traced {i j line : Nat} {later : List (Nat × Nat)} (h : Placed E later pc)
    (hwithin : ∀ g ∈ E, g.Within i j) (hi : i ≤ pc) (hj : pc < j) :
    Traced (⟨i, j, line, later⟩ :: E) pc := by
  have hself : (⟨i, j, line, later⟩ : Extent).Covers pc := ⟨hi, hj⟩
  have hfilter : ((⟨i, j, line, later⟩ :: E).filter fun g => g.Covers pc) =
      ⟨i, j, line, later⟩ :: E.filter fun g => g.Covers pc :=
    List.filter_cons_of_pos (decide_eq_true hself)
  have htake : ((⟨i, j, line, later⟩ :: E).takeWhile fun g => g.first ≤ pc) =
      ⟨i, j, line, later⟩ :: E.takeWhile fun g => g.first ≤ pc :=
    List.takeWhile_cons_of_pos (decide_eq_true hi)
  -- As long as no nested statement covers the place, the statement itself is the innermost one.
  have halone (hnone : ∀ g ∈ E, ¬ g.Covers pc) :
      innermost (⟨i, j, line, later⟩ :: E) pc = some ⟨i, j, line, later⟩ ∧
      ∀ g ∈ (⟨i, j, line, later⟩ : Extent) :: E, g.Covers pc → g.first ≤ i ∧ j ≤ g.stop := by
    refine ⟨?_, ?_⟩
    · rw [innermost, hfilter, innermost_eq_none hnone]
      rfl
    · intro g hg hcovers
      rcases List.mem_cons.mp hg with rfl | hg
      · exact ⟨Nat.le_refl i, Nat.le_refl j⟩
      · exact absurd hcovers (hnone g hg)
  cases h with
  | before h =>
    obtain ⟨hinner, hleast⟩ := halone fun g hg hcovers => Nat.not_le_of_lt (h g hg) hcovers.1
    refine ⟨_, _, hinner, hleast, ?_, .inl rfl⟩
    rw [latest, htake, latest_eq_none h]
    rfl
  | inside h =>
    obtain ⟨e, f, h⟩ := h
    obtain ⟨he, hcovered⟩ := innermost_mem h.inner
    have hinner := h.inner
    have hlast := h.last
    rw [innermost] at hinner
    rw [latest] at hlast
    refine ⟨e, f, ?_, ?_, ?_, h.nested⟩
    · rw [innermost, hfilter, List.getLast?_cons, hinner]
      rfl
    · intro g hg hcovers
      rcases List.mem_cons.mp hg with rfl | hg
      · exact ⟨(hwithin e he).starts, (hwithin e he).ends⟩
      · exact h.least g hg hcovers
    · rw [latest, htake, List.getLast?_cons, hlast]
      rfl
  | between hlater h =>
    obtain ⟨hinner, hleast⟩ := halone h
    cases hlast : latest E pc with
    | none =>
      refine ⟨_, _, hinner, hleast, ?_, .inl rfl⟩
      rw [latest] at hlast
      rw [latest, htake, List.getLast?_cons, hlast]
      rfl
    | some f =>
      -- The nested statement that started last does not cover the place, so it is over.
      obtain ⟨hf, hstarted⟩ := latest_mem hlast
      have hover : f.stop ≤ pc := Nat.le_of_not_lt fun hlt => h f hf ⟨hstarted, hlt⟩
      refine ⟨_, f, hinner, hleast, ?_, .inr ⟨hlater, (hwithin f hf).starts, hover⟩⟩
      rw [latest] at hlast
      rw [latest, htake, List.getLast?_cons, hlast]
      rfl

/-- Code before all nested statements. -/
theorem Placed.of_within {i j : Nat} {later : List (Nat × Nat)} (h : ∀ e ∈ E, e.Within i j)
    (hpc : pc < i) : Placed E later pc :=
  .before fun e he => (h e he).lt_first hpc

/-- A place in the condition of an arm.  Nothing has started yet when it is that of the first one. -/
theorem placed_condition (arms : List (Expr × List Stmt)) {σ : Shape} {i j : Nat}
    (hE : ∀ e ∈ E, e.Within (i + (armsShapes σ arms).length) j)
    (hpc : pc < i + (armsShapes σ arms).length)
    (hcondition : ∃ r ∈ conditions σ i arms, r.1 ≤ pc ∧ pc < r.2)
    (hnone : ∀ e ∈ armsExtents σ i arms, ¬ e.Covers pc) :
    Placed (armsExtents σ i arms ++ E) (conditions σ i arms).tail pc := by
  obtain ⟨r, hr, hfrom, hto⟩ := hcondition
  cases arms with
  | nil => cases hr
  | cons arm rest =>
    obtain ⟨condition, body⟩ := arm
    simp only [conditions] at hr
    rcases List.mem_cons.mp hr with rfl | hr
    · refine .before fun e he => ?_
      simp only [armsExtents] at he
      rcases List.mem_append.mp he with he | he
      · rcases List.mem_append.mp he with he | he
        · exact (block_within body σ _ e he).lt_first (by omega)
        · exact (arms_within rest σ _ e he).lt_first (by omega)
      · exact (hE e he).lt_first hpc
    · refine .between ⟨r, hr, hfrom, hto⟩ fun e he => ?_
      rcases List.mem_append.mp he with he | he
      · exact hnone e he
      · exact (hE e he).not_covers_before hpc

end

end Lineage.Script
