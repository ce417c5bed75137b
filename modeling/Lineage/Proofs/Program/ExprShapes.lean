/-
  Lineage.Proofs.Program.ExprShapes

  The shapes of the code of expressions.

  `e.shapes σ` lists the shapes of the instructions of `e`, in order, when the first of
  them has shape `σ`.  It is computed from the expression alone; code that lies as the
  layout says is as long as the list (`expr_length`).
-/
import Lineage.Proofs.Machine.Shapes
import Lineage.Proofs.Program.Placement

namespace Lineage.Script

open Draft (operandCount isIndexed)

/-! ## Lists of shapes beside code -/

/-- A list of shapes has another in it, from a place on. -/
def Laid (S : List Shape) : Nat → List Shape → Prop
  | _, [] => True
  | i, σ :: rest => S[i]? = some σ ∧ Laid S (i + 1) rest

theorem laid_append {S l₁ l₂ : List Shape} {i : Nat} :
    Laid S i (l₁ ++ l₂) ↔ Laid S i l₁ ∧ Laid S (i + l₁.length) l₂ := by
  induction l₁ generalizing i with
  | nil => simp only [List.nil_append, Laid, true_and, List.length_nil, Nat.add_zero]
  | cons σ rest ih =>
    simp only [List.cons_append, Laid, ih, List.length_cons, and_assoc]
    rw [Nat.add_assoc, Nat.add_comm 1]

theorem laid_self (l₁ l₂ : List Shape) : Laid (l₁ ++ l₂) l₁.length l₂ := by
  induction l₂ generalizing l₁ with
  | nil => trivial
  | cons σ rest ih =>
    refine ⟨?_, ?_⟩
    · rw [List.getElem?_append_right (Nat.le_refl _), Nat.sub_self]
      rfl
    · have h := ih (l₁ ++ [σ])
      rwa [List.append_assoc, List.length_append] at h

/-! ## Shapes of expressions -/

/-- The shapes of the code that puts changed containers back, over shape `σ`. -/
def putBackShapes (σ : Shape) : Expr → List Shape
  | .index base _ => σ.up (operandCount base + 3) :: putBackShapes σ base
  | .var _ => [σ.up 1]
  | .prop _ _ => [σ.up 3]
  | _ => []

mutual

/-- The shapes of the code of an expression that starts in shape `σ`. -/
def Expr.shapes (σ : Shape) : Expr → List Shape
  | .value _ | .var _ => [σ]
  | .and left right | .or left right =>
      Expr.shapes σ left ++ σ.up 1 :: Expr.shapes σ right
  | .binary _ left right => Expr.shapes σ left ++ (Expr.shapes (σ.up 1) right ++ [σ.up 2])
  | .unary _ operand => Expr.shapes σ operand ++ [σ.up 1]
  | .index base index => Expr.shapes σ base ++ (Expr.shapes (σ.up 1) index ++ [σ.up 2])
  | .range base first last => Expr.shapes σ base ++ (Expr.shapes (σ.up 1) first ++
      (Expr.shapes (σ.up 2) last ++ [σ.up 3]))
  | .prop object property => Expr.shapes σ object ++ (Expr.shapes (σ.up 1) property ++ [σ.up 2])
  | .call _ args => argsShapes σ args ++ [σ.up 1]
  | .verb object name args => Expr.shapes σ object ++ (Expr.shapes (σ.up 1) name ++
      (argsShapes (σ.up 2) args ++ [σ.up 3]))
  | .cond condition consequence alternative => Expr.shapes σ condition ++ (σ.up 1 ::
      (Expr.shapes σ consequence ++ (σ.up 1 :: Expr.shapes σ alternative)))
  | .list items => argsShapes σ items
  | .map entries => σ :: entriesShapes σ entries
  | .scatter targets source => Expr.shapes σ source ++ (σ.up 1 :: defaultsShapes σ targets)
  | .assign target value => locationShapes false σ target ++
      (Expr.shapes (σ.up (operandCount target)) value ++
        if isIndexed target then
          σ.up (operandCount target + 1) :: (putBackShapes σ target ++ [σ.up 1, σ])
        else putBackShapes σ target)

/-- The shapes of the code for what an assignment needs. -/
def locationShapes (inner : Bool) (σ : Shape) : Expr → List Shape
  | .index base index => locationShapes true σ base ++
      (Expr.shapes (σ.up (operandCount base + 1)) index ++
        if inner then [σ.up (operandCount base + 2)] else [])
  | .var _ => if inner then [σ] else []
  | .prop object property => Expr.shapes σ object ++ (Expr.shapes (σ.up 1) property ++
      if inner then [σ.up 2] else [])
  | _ => [σ]

/-- The shapes of the code of a list of arguments. -/
def argsShapes (σ : Shape) : List Arg → List Shape
  | [] => [σ]
  | .item e :: rest | .splice e :: rest =>
      Expr.shapes σ e ++ (σ.up 1 :: moreArgsShapes σ rest)

/-- The shapes of the code that adds arguments to the list that is on top of shape `σ`. -/
def moreArgsShapes (σ : Shape) : List Arg → List Shape
  | [] => []
  | .item e :: rest | .splice e :: rest =>
      Expr.shapes (σ.up 1) e ++ (σ.up 2 :: moreArgsShapes σ rest)

/-- The shapes of the code that adds entries to the map that is on top of shape `σ`. -/
def entriesShapes (σ : Shape) : List (Expr × Expr) → List Shape
  | [] => []
  | (key, value) :: rest => Expr.shapes (σ.up 1) key ++ (Expr.shapes (σ.up 2) value ++
      (σ.up 3 :: entriesShapes σ rest))

/-- The shapes of the code of defaults, with the list that was dealt out on top of shape `σ`. -/
def defaultsShapes (σ : Shape) : List Target → List Shape
  | [] => []
  | .optional _ (some default) :: rest =>
      Expr.shapes (σ.up 1) default ++ (σ.up 2 :: σ.up 2 :: defaultsShapes σ rest)
  | .required _ :: rest | .rest _ :: rest | .optional _ none :: rest => defaultsShapes σ rest

end

/-! ## Lengths -/

section

variable {p : Program}

theorem putBack_length (target : Expr) {i j : Nat} (h : PutBackAt p target i j) (σ : Shape) :
    j = i + (putBackShapes σ target).length := by
  cases target with
  | index base index =>
    have hbase := putBack_length base h.2 σ
    simp only [putBackShapes, List.length_cons]
    omega
  | var name => exact h.2
  | prop object property => exact h.2
  | _ => exact h.elim

mutual

/-- Code is as long as the list of its shapes. -/
theorem expr_length (e : Expr) {i j : Nat} (h : Expr.At p e i j) (σ : Shape) :
    j = i + (e.shapes σ).length := by
  cases e with
  | value v =>
    simp only [Expr.At] at h
    obtain ⟨op, -, -, rfl⟩ := h
    rfl
  | var name =>
    simp only [Expr.At] at h
    exact h.2
  | and left right | or left right =>
    simp only [Expr.At] at h
    obtain ⟨k, done, hl, -, hr, -⟩ := h
    have hk := expr_length left hl σ
    have hj := expr_length right hr σ
    simp only [Expr.shapes, List.length_append, List.length_cons]
    omega
  | binary op left right | index left right | prop left right =>
    simp only [Expr.At] at h
    obtain ⟨k, m, hl, hr, -, rfl⟩ := h
    have hk := expr_length left hl σ
    have hm := expr_length right hr (σ.up 1)
    simp only [Expr.shapes, List.length_append, List.length_cons, List.length_nil]
    omega
  | unary op operand =>
    obtain ⟨k, ho, rfl⟩ : ∃ k, Expr.At p operand i k ∧ j = k + 1 := by
      cases op <;> simp only [Expr.At] at h <;> obtain ⟨k, ho, -, hj⟩ := h <;> exact ⟨k, ho, hj⟩
    have hk := expr_length operand ho σ
    simp only [Expr.shapes, List.length_append, List.length_cons, List.length_nil]
    omega
  | range base first last =>
    simp only [Expr.At] at h
    obtain ⟨k, m, n, hb, hf, hl, -, rfl⟩ := h
    have hk := expr_length base hb σ
    have hm := expr_length first hf (σ.up 1)
    have hn := expr_length last hl (σ.up 2)
    simp only [Expr.shapes, List.length_append, List.length_cons, List.length_nil]
    omega
  | call function args =>
    simp only [Expr.At] at h
    obtain ⟨f, k, -, ha, -, rfl⟩ := h
    have hk := args_length args ha σ
    simp only [Expr.shapes, List.length_append, List.length_cons, List.length_nil]
    omega
  | verb object name args =>
    simp only [Expr.At] at h
    obtain ⟨k, m, n, ho, hname, ha, -, rfl⟩ := h
    have hk := expr_length object ho σ
    have hm := expr_length name hname (σ.up 1)
    have hn := args_length args ha (σ.up 2)
    simp only [Expr.shapes, List.length_append, List.length_cons, List.length_nil]
    omega
  | cond condition consequence alternative =>
    simp only [Expr.At] at h
    obtain ⟨k, m, otherwise, done, hc, -, ht, -, -, ha, -⟩ := h
    have hk := expr_length condition hc σ
    have hm := expr_length consequence ht σ
    have hj := expr_length alternative ha σ
    simp only [Expr.shapes, List.length_append, List.length_cons]
    omega
  | list items =>
    simp only [Expr.At] at h
    simp only [Expr.shapes]
    exact args_length items h σ
  | map entries =>
    simp only [Expr.At] at h
    have hj := entries_length entries h.2 σ
    simp only [Expr.shapes, List.length_cons]
    omega
  | scatter targets source =>
    simp only [Expr.At] at h
    obtain ⟨k, slot, table, hs, -, -, hd, -⟩ := h
    have hk := expr_length source hs σ
    have hj := defaults_length targets hd σ
    simp only [Expr.shapes, List.length_append, List.length_cons]
    omega
  | assign target value =>
    simp only [Expr.At] at h
    obtain ⟨k, m, hloc, hval, hput⟩ := h
    have hk := location_length false target hloc σ
    have hm := expr_length value hval (σ.up (operandCount target))
    by_cases hi : isIndexed target = true
    · rw [if_pos hi] at hput
      obtain ⟨n, -, hput, -, -, rfl⟩ := hput
      have hn := putBack_length target hput σ
      simp only [Expr.shapes, hi, if_true, List.length_append, List.length_cons, List.length_nil]
      omega
    · rw [if_neg hi] at hput
      have hj := putBack_length target hput σ
      simp only [Expr.shapes, hi, if_false, List.length_append, Bool.false_eq_true]
      omega

theorem location_length (inner : Bool) (target : Expr) {i j : Nat}
    (h : LocationAt p inner target i j) (σ : Shape) :
    j = i + (locationShapes inner σ target).length := by
  cases target with
  | index base index =>
    simp only [LocationAt] at h
    obtain ⟨k, m, hb, hx, hj⟩ := h
    have hk := location_length true base hb σ
    have hm := expr_length index hx (σ.up (operandCount base + 1))
    cases inner with
    | false =>
      obtain rfl : j = m := by simpa using hj
      simp only [locationShapes, List.length_append, Bool.false_eq_true, if_false, List.length_nil]
      omega
    | true =>
      obtain ⟨-, rfl⟩ : _ ∧ j = m + 1 := by simpa using hj
      simp only [locationShapes, List.length_append, if_true, List.length_cons, List.length_nil]
      omega
  | var name =>
    simp only [LocationAt] at h
    cases inner with
    | false => exact by simpa [locationShapes] using h
    | true =>
      obtain ⟨-, rfl⟩ : _ ∧ j = i + 1 := by simpa using h
      rfl
  | prop object property =>
    simp only [LocationAt] at h
    obtain ⟨k, m, ho, hp, hj⟩ := h
    have hk := expr_length object ho σ
    have hm := expr_length property hp (σ.up 1)
    cases inner with
    | false =>
      obtain rfl : j = m := by simpa using hj
      simp only [locationShapes, List.length_append, Bool.false_eq_true, if_false, List.length_nil]
      omega
    | true =>
      obtain ⟨-, rfl⟩ : _ ∧ j = m + 1 := by simpa using hj
      simp only [locationShapes, List.length_append, if_true, List.length_cons, List.length_nil]
      omega
  | _ =>
    simp only [LocationAt] at h

theorem args_length (args : List Arg) {i j : Nat} (h : ArgsAt p args i j) (σ : Shape) :
    j = i + (argsShapes σ args).length := by
  match args with
  | [] =>
    simp only [ArgsAt] at h
    exact h.2
  | .item e :: rest | .splice e :: rest =>
    simp only [ArgsAt] at h
    obtain ⟨k, he, -, hrest⟩ := h
    have hk := expr_length e he σ
    have hj := moreArgs_length rest hrest σ
    simp only [argsShapes, List.length_append, List.length_cons]
    omega

theorem moreArgs_length (args : List Arg) {i j : Nat} (h : MoreArgsAt p args i j) (σ : Shape) :
    j = i + (moreArgsShapes σ args).length := by
  match args with
  | [] =>
    simp only [MoreArgsAt] at h
    exact h
  | .item e :: rest | .splice e :: rest =>
    simp only [MoreArgsAt] at h
    obtain ⟨k, he, -, hrest⟩ := h
    have hk := expr_length e he (σ.up 1)
    have hj := moreArgs_length rest hrest σ
    simp only [moreArgsShapes, List.length_append, List.length_cons]
    omega

theorem entries_length (entries : List (Expr × Expr)) {i j : Nat} (h : EntriesAt p entries i j)
    (σ : Shape) : j = i + (entriesShapes σ entries).length := by
  match entries with
  | [] =>
    simp only [EntriesAt] at h
    exact h
  | (key, value) :: rest =>
    simp only [EntriesAt] at h
    obtain ⟨k, m, hkey, hvalue, -, hrest⟩ := h
    have hk := expr_length key hkey (σ.up 1)
    have hm := expr_length value hvalue (σ.up 2)
    have hj := entries_length rest hrest σ
    simp only [entriesShapes, List.length_append, List.length_cons]
    omega

theorem defaults_length (targets : List Target) {entries : List ScatterEntry} {i j : Nat}
    (h : DefaultsAt p targets entries i j) (σ : Shape) :
    j = i + (defaultsShapes σ targets).length := by
  match targets with
  | [] =>
    simp only [DefaultsAt] at h
    exact h.2
  | .required name :: rest | .rest name :: rest | .optional name none :: rest =>
    simp only [DefaultsAt] at h
    obtain ⟨more, rfl, hrest⟩ := h
    simp only [defaultsShapes]
    exact defaults_length rest hrest σ
  | .optional name (some default) :: rest =>
    simp only [DefaultsAt] at h
    obtain ⟨label, more, k, rfl, -, hd, -, -, hrest⟩ := h
    have hk := expr_length default hd (σ.up 1)
    have hj := defaults_length rest hrest σ
    simp only [defaultsShapes, List.length_append, List.length_cons]
    omega

end

end

/-! ## First shapes -/

section

variable {S : List Shape}

mutual

/-- The first instruction of an expression has the shape that the expression starts in. -/
theorem expr_head (e : Expr) {σ : Shape} {i : Nat} (h : Laid S i (e.shapes σ)) :
    S[i]? = some σ := by
  cases e with
  | value v => exact h.1
  | var name => exact h.1
  | and left right | or left right | binary op left right | index left right | prop left right =>
    simp only [Expr.shapes, laid_append] at h
    exact expr_head left h.1
  | unary op operand =>
    simp only [Expr.shapes, laid_append] at h
    exact expr_head operand h.1
  | range base first last =>
    simp only [Expr.shapes, laid_append] at h
    exact expr_head base h.1
  | call function args =>
    simp only [Expr.shapes, laid_append] at h
    exact args_head args h.1
  | verb object name args =>
    simp only [Expr.shapes, laid_append] at h
    exact expr_head object h.1
  | cond condition consequence alternative =>
    simp only [Expr.shapes, laid_append] at h
    exact expr_head condition h.1
  | list items =>
    simp only [Expr.shapes] at h
    exact args_head items h
  | map entries =>
    simp only [Expr.shapes, Laid] at h
    exact h.1
  | scatter targets source =>
    simp only [Expr.shapes, laid_append] at h
    exact expr_head source h.1
  | assign target value =>
    simp only [Expr.shapes, laid_append] at h
    obtain ⟨hloc, hval, -⟩ := h
    cases target with
    | var name => exact expr_head value hval
    | _ => exact location_head false _ (by intro _ _ h; cases h) hloc

/-- The code for a place starts in the shape that the assignment starts in, unless there is none. -/
theorem location_head (inner : Bool) (target : Expr) {σ : Shape} {i : Nat}
    (hcode : inner = false → ∀ name, target ≠ .var name)
    (h : Laid S i (locationShapes inner σ target)) : S[i]? = some σ := by
  cases target with
  | index base index =>
    simp only [locationShapes, laid_append] at h
    exact location_head true base (fun h => nomatch h) h.1
  | var name =>
    cases inner with
    | false => exact absurd rfl (hcode rfl name)
    | true => exact h.1
  | prop object property =>
    simp only [locationShapes, laid_append] at h
    exact expr_head object h.1
  | _ =>
    simp only [locationShapes] at h
    exact h.1

theorem args_head (args : List Arg) {σ : Shape} {i : Nat} (h : Laid S i (argsShapes σ args)) :
    S[i]? = some σ := by
  match args with
  | [] => exact h.1
  | .item e :: rest | .splice e :: rest =>
    simp only [argsShapes, laid_append] at h
    exact expr_head e h.1

end

/-- Where arguments are added, the list is on top. -/
theorem moreArgs_head (args : List Arg) {σ : Shape} {i : Nat} (h : Laid S i (moreArgsShapes σ args))
    (hexit : S[i + (moreArgsShapes σ args).length]? = some (σ.up 1)) :
    S[i]? = some (σ.up 1) := by
  match args with
  | [] => exact hexit
  | .item e :: rest | .splice e :: rest =>
    simp only [moreArgsShapes, laid_append] at h
    exact expr_head e h.1

theorem entries_head (entries : List (Expr × Expr)) {σ : Shape} {i : Nat}
    (h : Laid S i (entriesShapes σ entries))
    (hexit : S[i + (entriesShapes σ entries).length]? = some (σ.up 1)) :
    S[i]? = some (σ.up 1) := by
  match entries with
  | [] => exact hexit
  | (key, value) :: rest =>
    simp only [entriesShapes, laid_append] at h
    exact expr_head key h.1

theorem defaults_head (targets : List Target) {σ : Shape} {i : Nat}
    (h : Laid S i (defaultsShapes σ targets))
    (hexit : S[i + (defaultsShapes σ targets).length]? = some (σ.up 1)) :
    S[i]? = some (σ.up 1) := by
  match targets with
  | [] => exact hexit
  | .required _ :: rest | .rest _ :: rest | .optional _ none :: rest =>
    simp only [defaultsShapes] at h hexit
    exact defaults_head rest h hexit
  | .optional _ (some default) :: rest =>
    simp only [defaultsShapes, laid_append] at h
    exact expr_head default h.1

end

end Lineage.Script
