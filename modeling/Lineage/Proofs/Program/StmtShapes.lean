/-
  Lineage.Proofs.Program.StmtShapes

  The shapes of the code of statements.

  A statement starts and ends in a shape in which no handler is being prepared
  (`Shape.plain`).  The two values that a `for` loop keeps are on the stack in its
  body, and the body of a `try` statement has one more scope; nothing else of a
  statement is left on the stack while another one runs inside it.
-/
import Lineage.Proofs.Program.ExprShapes

namespace Lineage

/-- A shape in which no handler is being prepared. -/
abbrev Shape.plain (height : Nat) (scopes : List Nat) : Shape := ⟨height, scopes, 0, 0⟩

namespace Script

/-- The shapes of the code of what a clause takes. -/
def codesShapes (σ : Shape) : Codes → List Shape
  | .any => [σ]
  | .listed codes => argsShapes σ codes

/-- The shapes of the code that prepares handlers. -/
def catchesShapes (σ : Shape) : List Handler → List Shape
  | [] => []
  | .mk _ codes _ :: rest => codesShapes σ codes ++ (σ.up 1 :: catchesShapes (σ.up 1).prepare rest)

/-- The shape after handlers have been prepared. -/
def afterCatches (σ : Shape) : List Handler → Shape
  | [] => σ
  | _ :: rest => afterCatches (σ.up 1).prepare rest

/-- The shapes of the code that takes an error off the stack. -/
def receiveShapes (σ : Shape) : Option Name → List Shape
  | none => [σ.up 1]
  | some _ => [σ.up 1, σ.up 1]

mutual

/-- The shapes of the code of a statement that starts in shape `σ`. -/
def Stmt.shapes (σ : Shape) : Stmt → List Shape
  | .mk _ _ node => StmtNode.shapes σ node

def StmtNode.shapes (σ : Shape) : StmtNode → List Shape
  | .branch arms otherwise => armsShapes σ arms ++
      (match otherwise with
        | some body => blockShapes σ body
        | none => [])
  | .forList _ source body =>
      Expr.shapes σ source ++ (σ.up 1 :: σ.up 2 :: (blockShapes (σ.up 2) body ++ [σ.up 2]))
  | .forRange _ first last body => Expr.shapes σ first ++ (Expr.shapes (σ.up 1) last ++
      (σ.up 2 :: (blockShapes (σ.up 2) body ++ [σ.up 2])))
  | .while condition body =>
      Expr.shapes σ condition ++ (σ.up 1 :: (blockShapes σ body ++ [σ]))
  | .try body handlers => catchesShapes σ handlers ++ (afterCatches σ handlers ::
      (blockShapes σ.enter body ++ (σ.enter :: handlersShapes σ handlers)))
  | .break | .continue | .return none => [σ]
  | .return (some e) | .expr e => Expr.shapes σ e ++ [σ.up 1]

/-- The shapes of the code of statements in a row. -/
def blockShapes (σ : Shape) : List Stmt → List Shape
  | [] => []
  | stmt :: rest => Stmt.shapes σ stmt ++ blockShapes σ rest

/-- The shapes of the code of the conditions of a branch and what they guard. -/
def armsShapes (σ : Shape) : List (Expr × List Stmt) → List Shape
  | [] => []
  | (condition, body) :: rest => Expr.shapes σ condition ++ (σ.up 1 ::
      (blockShapes σ body ++ (σ :: armsShapes σ rest)))

/-- The shapes of the code of the bodies of handlers. -/
def handlersShapes (σ : Shape) : List Handler → List Shape
  | [] => []
  | .mk name _ body :: rest => receiveShapes σ name ++ (blockShapes σ body ++
      if rest.isEmpty then [] else σ :: handlersShapes σ rest)

end

/-! ## Lengths -/

section

variable {p : Program}

theorem codes_length {codes : Codes} {i j : Nat} (h : Codes.At p codes i j) (σ : Shape) :
    j = i + (codesShapes σ codes).length := by
  cases codes with
  | any => exact h.2
  | listed codes => exact args_length codes h σ

theorem catches_shapes_length {handlers : List Handler} {labels : List Label} {i j : Nat}
    (h : CatchesAt p handlers labels i j) (σ : Shape) :
    j = i + (catchesShapes σ handlers).length := by
  induction handlers generalizing labels i σ with
  | nil => exact h.2
  | cons handler rest ih =>
    obtain ⟨name, codes, body⟩ := handler
    obtain ⟨label, more, k, -, hcodes, -, hrest⟩ := h
    have hk := codes_length hcodes σ
    have hj := ih hrest (σ.up 1).prepare
    simp only [catchesShapes, List.length_append, List.length_cons]
    omega

theorem receive_length {name : Option Name} {i j : Nat} (h : ReceiveAt p name i j) (σ : Shape) :
    j = i + (receiveShapes σ name).length := by
  cases name with
  | none => exact h.2
  | some name => exact h.2.2

mutual

/-- The code of a statement is as long as the list of its shapes. -/
theorem stmt_length (stmt : Stmt) {s : Site} {i j : Nat} (h : Stmt.At p s stmt i j) (σ : Shape) :
    j = i + (stmt.shapes σ).length := by
  obtain ⟨line, column, node⟩ := stmt
  simp only [Stmt.At] at h
  simp only [Stmt.shapes]
  exact stmtNode_length node h σ

theorem stmtNode_length (node : StmtNode) {s : Site} {i j : Nat} (h : StmtNode.At p s node i j)
    (σ : Shape) : j = i + (node.shapes σ).length := by
  cases node with
  | branch arms otherwise =>
    cases otherwise with
    | none =>
      simp only [StmtNode.At] at h
      obtain ⟨k, finish, harms, rfl, -⟩ := h
      have hk := arms_length arms harms σ
      simp only [StmtNode.shapes, List.append_nil]
      exact hk
    | some body =>
      simp only [StmtNode.At] at h
      obtain ⟨k, finish, harms, hother, -⟩ := h
      have hk := arms_length arms harms σ
      have hj := block_length body hother σ
      simp only [StmtNode.shapes, List.length_append]
      omega
  | forList name source body =>
    simp only [StmtNode.At] at h
    obtain ⟨k, m, top, finish, hs, -, -, hb, -, -, -, rfl⟩ := h
    have hk := expr_length source hs σ
    have hm := block_length body hb (σ.up 2)
    simp only [StmtNode.shapes, List.length_append, List.length_cons, List.length_nil]
    omega
  | forRange name first last body =>
    simp only [StmtNode.At] at h
    obtain ⟨n, k, m, top, finish, hf, hl, -, hb, -, -, -, rfl⟩ := h
    have hn := expr_length first hf σ
    have hk := expr_length last hl (σ.up 1)
    have hm := block_length body hb (σ.up 2)
    simp only [StmtNode.shapes, List.length_append, List.length_cons, List.length_nil]
    omega
  | «while» condition body =>
    simp only [StmtNode.At] at h
    obtain ⟨k, m, top, finish, hc, -, hb, -, -, -, rfl⟩ := h
    have hk := expr_length condition hc σ
    have hm := block_length body hb σ
    simp only [StmtNode.shapes, List.length_append, List.length_cons, List.length_nil]
    omega
  | «try» body handlers =>
    simp only [StmtNode.At] at h
    obtain ⟨k, m, labels, count, finish, hc, -, -, hb, -, hh, -⟩ := h
    have hk := catches_shapes_length hc σ
    have hm := block_length body hb σ.enter
    have hj := handlers_length handlers hh σ
    simp only [StmtNode.shapes, List.length_append, List.length_cons]
    omega
  | «break» =>
    simp only [StmtNode.At] at h
    obtain ⟨-, -, -, -, -, -, -, -, -, rfl⟩ := h
    rfl
  | «continue» =>
    simp only [StmtNode.At] at h
    obtain ⟨-, -, -, -, -, -, -, -, -, rfl⟩ := h
    rfl
  | «return» value =>
    cases value with
    | none =>
      simp only [StmtNode.At] at h
      exact h.2
    | some e =>
      simp only [StmtNode.At] at h
      obtain ⟨k, he, -, rfl⟩ := h
      have hk := expr_length e he σ
      simp only [StmtNode.shapes, List.length_append, List.length_cons, List.length_nil]
      omega
  | expr e =>
    simp only [StmtNode.At] at h
    obtain ⟨k, he, -, rfl⟩ := h
    have hk := expr_length e he σ
    simp only [StmtNode.shapes, List.length_append, List.length_cons, List.length_nil]
    omega

theorem block_length (stmts : List Stmt) {s : Site} {i j : Nat} (h : BlockAt p s stmts i j)
    (σ : Shape) : j = i + (blockShapes σ stmts).length := by
  match stmts with
  | [] =>
    simp only [BlockAt] at h
    exact h
  | stmt :: rest =>
    simp only [BlockAt] at h
    obtain ⟨k, hs, hrest⟩ := h
    have hk := stmt_length stmt hs σ
    have hj := block_length rest hrest σ
    simp only [blockShapes, List.length_append]
    omega

theorem arms_length (arms : List (Expr × List Stmt)) {s : Site} {finish : Label} {i j : Nat}
    (h : ArmsAt p s finish arms i j) (σ : Shape) : j = i + (armsShapes σ arms).length := by
  match arms with
  | [] =>
    simp only [ArmsAt] at h
    exact h
  | (condition, body) :: rest =>
    simp only [ArmsAt] at h
    obtain ⟨k, m, next, hc, -, hb, -, -, hrest⟩ := h
    have hk := expr_length condition hc σ
    have hm := block_length body hb σ
    have hj := arms_length rest hrest σ
    simp only [armsShapes, List.length_append, List.length_cons]
    omega

theorem handlers_length (handlers : List Handler) {s : Site} {finish : Label} {labels : List Label}
    {i j : Nat} (h : HandlersAt p s finish handlers labels i j) (σ : Shape) :
    j = i + (handlersShapes σ handlers).length := by
  match handlers with
  | [] =>
    simp only [HandlersAt] at h
    exact h.2
  | .mk name codes body :: rest =>
    simp only [HandlersAt] at h
    obtain ⟨label, more, k, m, -, -, hr, hb, hrest⟩ := h
    have hk := receive_length hr σ
    have hm := block_length body hb σ
    by_cases hlast : rest.isEmpty = true
    · rw [if_pos hlast] at hrest
      simp only [handlersShapes, hlast, if_true, List.append_nil, List.length_append]
      omega
    · rw [if_neg hlast] at hrest
      have hj := handlers_length rest hrest.2 σ
      simp only [handlersShapes, hlast, if_false, List.length_append, List.length_cons,
        Bool.false_eq_true]
      omega

end

end

/-! ## First shapes -/

section

variable {S : List Shape} {σ : Shape}

theorem codes_head {codes : Codes} {i : Nat} (h : Laid S i (codesShapes σ codes)) :
    S[i]? = some σ := by
  cases codes with
  | any => exact h.1
  | listed codes => exact args_head codes h

/-- Handlers are prepared from the shape in which their statement starts. -/
theorem catches_head {handlers : List Handler} {i : Nat} (h : Laid S i (catchesShapes σ handlers))
    (hexit : S[i + (catchesShapes σ handlers).length]? = some (afterCatches σ handlers)) :
    S[i]? = some σ := by
  cases handlers with
  | nil => exact hexit
  | cons handler rest =>
    obtain ⟨name, codes, body⟩ := handler
    simp only [catchesShapes, laid_append] at h
    exact codes_head h.1

theorem receive_head {name : Option Name} {i : Nat} (h : Laid S i (receiveShapes σ name)) :
    S[i]? = some (σ.up 1) := by
  cases name with
  | none => exact h.1
  | some name => exact h.1

theorem arms_head (arms : List (Expr × List Stmt)) {i : Nat} (h : Laid S i (armsShapes σ arms))
    (hexit : S[i + (armsShapes σ arms).length]? = some σ) : S[i]? = some σ := by
  match arms with
  | [] => exact hexit
  | (condition, body) :: rest =>
    simp only [armsShapes, laid_append] at h
    exact expr_head condition h.1

mutual

/-- A statement starts in its shape, and if it has no code it ends there. -/
theorem stmt_head (stmt : Stmt) {i : Nat} (h : Laid S i (stmt.shapes σ))
    (hexit : S[i + (stmt.shapes σ).length]? = some σ) : S[i]? = some σ := by
  obtain ⟨line, column, node⟩ := stmt
  simp only [Stmt.shapes] at h hexit
  cases node with
  | branch arms otherwise =>
    cases otherwise with
    | none =>
      simp only [StmtNode.shapes, List.append_nil] at h hexit
      exact arms_head arms h hexit
    | some body =>
      simp only [StmtNode.shapes, laid_append, List.length_append] at h hexit
      rw [← Nat.add_assoc] at hexit
      exact arms_head arms h.1 (block_head body h.2 hexit)
  | forList name source body =>
    simp only [StmtNode.shapes, laid_append] at h
    exact expr_head source h.1
  | forRange name first last body =>
    simp only [StmtNode.shapes, laid_append] at h
    exact expr_head first h.1
  | «while» condition body =>
    simp only [StmtNode.shapes, laid_append] at h
    exact expr_head condition h.1
  | «try» body handlers =>
    simp only [StmtNode.shapes, laid_append, Laid] at h
    exact catches_head h.1 h.2.1
  | «break» => exact h.1
  | «continue» => exact h.1
  | «return» value =>
    cases value with
    | none => exact h.1
    | some e =>
      simp only [StmtNode.shapes, laid_append] at h
      exact expr_head e h.1
  | expr e =>
    simp only [StmtNode.shapes, laid_append] at h
    exact expr_head e h.1

theorem block_head (stmts : List Stmt) {i : Nat} (h : Laid S i (blockShapes σ stmts))
    (hexit : S[i + (blockShapes σ stmts).length]? = some σ) : S[i]? = some σ := by
  match stmts with
  | [] => exact hexit
  | stmt :: rest =>
    simp only [blockShapes, laid_append, List.length_append] at h hexit
    rw [← Nat.add_assoc] at hexit
    exact stmt_head stmt h.1 (block_head rest h.2 hexit)

end

end

end Script

end Lineage
