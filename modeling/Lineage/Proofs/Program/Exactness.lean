/-
  Lineage.Proofs.Program.Exactness

  The numbers in a program are the true ones, as long as they fit.

  Labels, slots, heights and counts are 16 bits wide.  Where all tables of a program fit in
  16 bits nothing was cut off: the code of the script lies where its labels say, and no two
  names share a slot (`Program.compile_exact`).  Nothing refuses a longer script; it is
  compiled all the same, to a program that is not its code (`overlong_compiled`).
-/
import Lineage.Proofs.Program.Safety

namespace Lineage

open Script

/-- All numbers in the program of a script are the true ones. -/
structure Program.Exact (p : Program) (tree : SyntaxTree) : Prop where
  /-- Labels lead to, and operands name, what they were made for, and `break`, `continue` and `try`
  count what is there. -/
  code : p.CodeOf tree.statements
  named : Stmt.AllIn Spelled (Named p.names) tree.statements
  /-- Names that share a slot are one name. -/
  apart : ∀ a b n, p.names.find? a = some n → p.names.find? b = some n → Names.fold a = Names.fold b
  /-- The variables that are bound before a script starts keep their slots. -/
  bound : ∀ a n, Names.initial.find? a = some n → p.names.find? a = some n

/-- Compiling fails, or gives a program that is exact if its tables fit in 16 bits. -/
theorem Program.compile_exact (source : String) (customErrors : Bool) :
    (∃ e, Program.compile source customErrors = .error e) ∨
      ∃ tree p, SyntaxTree.read source customErrors = .ok tree ∧
        Program.compile source customErrors = .ok p ∧ (p.Fits → p.Exact tree) := by
  cases hcompile : Program.compile source customErrors with
  | error e => exact .inl ⟨e, rfl⟩
  | ok p =>
    obtain ⟨tree, hread, htree⟩ := Program.compile_ok hcompile
    refine .inr ⟨tree, p, hread, rfl, fun hfits => ?_⟩
    have hnames : tree.names = p.names := SyntaxTree.compile_names htree
    have hwidth : p.names.width ≤ UInt16.size := hfits.names
    obtain ⟨hinitial, hnamed⟩ := SyntaxTree.named_of_read hread
    exact {
      code := (SyntaxTree.sound_of_read hread (hnames ▸ hwidth)).codeOf htree hfits
      named := hnames ▸ hnamed
      apart := fun a b n => Names.find?_inj hwidth
      bound := fun a n => Names.find?_mono (hnames ▸ hinitial) }

/-- The program of a loop with a `try` statement in it is exact. -/
theorem Program.compile_exact_guardedLoop :
    ∃ tree p, SyntaxTree.read guardedLoop true = .ok tree ∧
      Program.compile guardedLoop true = .ok p ∧ p.Fits ∧ p.Exact tree := by
  have hbuilt : (build? guardedLoop true).isSome = true := by decide +kernel
  obtain ⟨⟨tree, p⟩, hbuild⟩ := Option.isSome_iff_exists.mp hbuilt
  obtain ⟨hread, htree, hfits⟩ := build?_eq_some hbuild
  have hcompile : Program.compile guardedLoop true = .ok p := by
    show (SyntaxTree.read guardedLoop true >>= SyntaxTree.compile) = .ok p
    rw [hread]
    exact htree
  obtain ⟨e, herror⟩ | ⟨tree', p', hread', hcompile', hexact⟩ :=
    Program.compile_exact guardedLoop true
  · rw [hcompile] at herror
    cases herror
  · rw [hread] at hread'
    rw [hcompile] at hcompile'
    cases hread'
    cases hcompile'
    exact ⟨tree, p, hread, hcompile, hfits, hexact hfits⟩

/-! ## Scripts that are too long -/

namespace Script

/-- The statement `1;`. -/
def one : Stmt := .mk 1 1 (.expr (.value (.int 1)))

/-- The statement `1 || 1;`, whose code has a label. -/
def oneOrOne : Stmt := .mk 1 1 (.expr (.or (.value (.int 1)) (.value (.int 1))))

/-- A script of `n` statements and one more that has a label. -/
def overlong (n : Nat) : SyntaxTree := ⟨List.replicate n one ++ [oneOrOne], .initial⟩

/-- The code of the last statement starts after two instructions for each one before. -/
theorem lastAt_of_blockAt {p : Program} {s : Site} {last : Stmt} (n : Nat) {i j : Nat}
    (h : BlockAt p s (List.replicate n one ++ [last]) i j) : Stmt.At p s last (i + 2 * n) j := by
  induction n generalizing i with
  | zero =>
    obtain ⟨k, hlast, rfl⟩ := h
    exact hlast
  | succ n ih =>
    -- One instruction pushes the number, the other one drops it.
    obtain ⟨k, ⟨m, ⟨op, -, -, rfl⟩, -, rfl⟩, hrest⟩ := h
    have hlast := ih hrest
    rwa [show i + 1 + 1 + 2 * n = i + 2 * (n + 1) by omega] at hlast

/-- No program has a label that leads so far. -/
theorem overlong_not_codeOf {n : Nat} (hn : UInt16.size ≤ 2 * n + 3) (p : Program) :
    ¬ p.CodeOf (overlong n).statements := by
  rintro ⟨j, hblock, -⟩
  obtain ⟨k, ⟨m, done, ⟨_, -, -, rfl⟩, -, ⟨_, -, -, rfl⟩, htarget⟩, -⟩ := lastAt_of_blockAt n hblock
  -- The label of the last statement would have to lead past the largest position.
  obtain ⟨jump, -, hposition⟩ := Option.map_eq_some_iff.mp htarget
  have hlt := jump.position.toNat_lt
  rw [hposition] at hlt
  simp only [UInt16.size] at hn
  omega

theorem block_ones (n : Nat) (rest : List Stmt) (d : Draft) :
    ∃ d', (Draft.block (List.replicate n one ++ rest)).run d = (Draft.block rest).run d' := by
  induction n generalizing d with
  | zero => exact ⟨d, rfl⟩
  | succ n ih => exact ih _

/-- A script that is too long is compiled all the same, and the program is not its code. -/
theorem overlong_compiled (n : Nat) (hn : UInt16.size ≤ 2 * n + 3) :
    ∃ p, (overlong n).compile = .ok p ∧ ¬ p.CodeOf (overlong n).statements := by
  obtain ⟨d, hd⟩ := block_ones n [oneOrOne] {}
  have hcompile : ∃ p, (overlong n).compile = .ok p := by
    unfold SyntaxTree.compile overlong
    dsimp only
    rw [hd]
    exact ⟨_, rfl⟩
  obtain ⟨p, hp⟩ := hcompile
  exact ⟨p, hp, overlong_not_codeOf hn p⟩

end Script

end Lineage
