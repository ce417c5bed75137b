/-
  Lineage.Proofs.Machine.Shapes

  What a program needs of its stacks, instruction by instruction.

  A shape says how many values are on the stack, how many there were when each open
  `try` body was entered, and how many handlers have been prepared for a body to come.
  A program is checked against a list of shapes, one for each place, when every
  instruction finds what it needs in the shape of its place and leaves the shape of
  every place that it leads to (`Program.Checked`).

  This is what a verifier of byte code would compute.  Here it is only stated; that
  checked programs run well is proved in `Lineage.Proofs.Machine.Safety`.
-/
import Lineage.Proofs.Machine.Dealing
import Lineage.Proofs.Program.Layout

namespace Lineage

open Script (Name)

/-- The stacks of a frame, as far as they are known without running it. -/
structure Shape where
  /-- How many values are on the stack. -/
  height : Nat
  /-- How many there were when each open `try` body was entered, innermost first. -/
  scopes : List Nat
  /-- How many handlers have been prepared. -/
  prepared : Nat := 0
  /-- The height that the prepared handlers go back to. -/
  base : Nat := 0

namespace Shape

/-- With `n` more values on the stack. -/
def up (σ : Shape) (n : Nat) : Shape := { σ with height := σ.height + n }

/-- With `n` fewer values on the stack. -/
def down (σ : Shape) (n : Nat) : Shape := { σ with height := σ.height - n }

/-- The shape in which a prepared handler starts, with the error on the stack. -/
def handler (σ : Shape) : Shape := ⟨σ.base + 1, σ.scopes, 0, 0⟩

/-- With one more handler prepared, for what the value on top says. -/
def prepare (σ : Shape) : Shape :=
  ⟨σ.height - 1, σ.scopes, σ.prepared + 1, σ.height - 1⟩

/-- In a `try` body. -/
def enter (σ : Shape) : Shape := ⟨σ.height, σ.height :: σ.scopes, 0, 0⟩

/-- `n` values can be taken without touching those that were there when an open `try` body was
entered. -/
structure Bears (σ : Shape) (n : Nat) : Prop where
  within : n ≤ σ.height
  above : ∀ h ∈ σ.scopes, h + n ≤ σ.height

/-- Whatever a shape bears, values that have been added can be taken too. -/
theorem Bears.up {σ : Shape} (h : σ.Bears 0) {m n : Nat} (hm : m ≤ n) : (σ.up n).Bears m where
  within := Nat.le_trans hm (Nat.le_add_left _ _)
  above := by
    intro x hx
    have hle := h.above x hx
    simp only [Shape.up]
    omega

theorem Bears.lift {σ : Shape} (h : σ.Bears 0) (n : Nat) : (σ.up n).Bears 0 := h.up (Nat.zero_le n)

theorem same_eq {σ : Shape} {n : Nat} (h : σ.height = n) : { σ with height := n } = σ := by
  rw [← h]

theorem up_eq {σ : Shape} {n k : Nat} (h : σ.height + k = n) : { σ with height := n } = σ.up k := by
  rw [← h]; rfl

theorem down_eq {σ : Shape} {n k : Nat} (h : σ.height = n + k) :
    { σ with height := n } = σ.down k := by
  simp only [down, h, Nat.add_sub_cancel]

end Shape

/-! ## What instructions need -/

namespace Op

/-- How many values from the top of the stack an instruction takes, looks at or replaces. -/
def operands : Op → Nat
  | .indexSet | .mapInsert | .range | .putProp | .callMethod => 3
  | .forList _ _ | .forRange _ _ | .appendItem | .appendList | .binary _ | .index | .indexOver
  | .getProp | .getPropOver => 2
  | .branch _ | .choose _ | .loopWhile _ | .pop | .wrapList | .checkSplice | .keepTop | .both _
  | .either _ | .not | .negate | .store _ | .returnTop | .callBuiltin _ | .scatter _
  | .pushCatch _ => 1
  | _ => 0

end Op

/-- The labels in a table: where to go on, and where the defaults start. -/
def ScatterTable.labels (t : ScatterTable) : List Label :=
  t.done :: t.entries.filterMap fun
    | .optional _ default => default
    | _ => none

/-- A list is dealt out to go on at a label of the table. -/
theorem ScatterTable.mem_labels {t : ScatterTable} {values : List Value} {shares : Scatter.Shares}
    (h : Scatter.distribute t values = .ok shares) : shares.defaultDue.getD t.done ∈ t.labels := by
  obtain ⟨restSize, hdeal⟩ := Scatter.distribute_ok h
  rw [Scatter.deal_due hdeal]
  cases hdue : Scatter.due (values.length - t.requiredCount) t.entries with
  | none => exact List.mem_cons_self
  | some l =>
    obtain ⟨name, hmem⟩ := Scatter.due_mem hdue
    exact List.mem_cons_of_mem _ (List.mem_filterMap.mpr ⟨_, hmem, rfl⟩)

/-- A label that a program has. -/
def Program.HasLabel (p : Program) (l : Label) : Prop := l.slot.toNat < p.labels.size

/-- A variable that a program has. -/
def Program.HasVariable (p : Program) (name : Name) : Prop := name.slot.toNat < p.names.width

/-- A program has whatever an instruction refers to. -/
def Op.Resolves (p : Program) : Op → Prop
  | .branch l | .choose l | .loopWhile l | .jump l | .both l | .either l | .pushCatch l
  | .enterTry _ l | .leaveTry l | .exit _ l _ => p.HasLabel l
  | .forList name l | .forRange name l => p.HasVariable name ∧ p.HasLabel l
  | .load name | .store name => p.HasVariable name
  | .pushLiteral l => l.slot.toNat < p.literals.size
  | .scatter slot => ∃ t, p.scatterTables[slot.toNat]? = some t ∧
      (∀ l ∈ t.labels, p.HasLabel l) ∧ ∀ entry ∈ t.entries, p.HasVariable entry.name
  | _ => True

/-- What an instruction needs of a shape besides values on the stack. -/
def Op.Suits (σ : Shape) : Op → Prop
  | .pushCatch _ => σ.prepared = 0 ∨ σ.base = σ.height - 1
  | .enterTry count _ => count.toNat = σ.prepared ∧ (σ.prepared = 0 ∨ σ.base = σ.height)
  | .leaveTry _ => σ.scopes ≠ []
  | .exit height _ scopes => height.toNat ≤ σ.height ∧ scopes.toNat ≤ σ.scopes.length
  | _ => True

/-! ## What instructions lead to -/

/-- A place that an instruction leads to. -/
inductive Exit where
  | next
  | label (l : Label)

/-- The shapes after an instruction.  A prepared handler counts as led to by what prepares it. -/
def Op.exits (p : Program) (σ : Shape) : Op → List (Exit × Shape)
  | .branch l | .choose l | .loopWhile l => [(.next, σ.down 1), (.label l, σ.down 1)]
  | .jump l => [(.label l, σ)]
  | .forList _ l | .forRange _ l => [(.next, σ), (.label l, σ.down 2)]
  | .both l | .either l => [(.next, σ.down 1), (.label l, σ)]
  | .pushNull | .pushInt _ | .pushFloat _ | .pushObj _ | .pushEmptyList | .pushLiteral _
  | .pushEmptyMap | .pushKept | .load _ | .indexOver | .getPropOver => [(.next, σ.up 1)]
  | .wrapList | .checkSplice | .keepTop | .not | .negate | .store _ | .callBuiltin _ => [(.next, σ)]
  | .pop | .appendItem | .appendList | .binary _ | .index | .getProp => [(.next, σ.down 1)]
  | .indexSet | .mapInsert | .range | .putProp | .callMethod => [(.next, σ.down 2)]
  | .scatter slot =>
    match p.scatterTables[slot.toNat]? with
    | some t => t.labels.map fun l => (.label l, σ)
    | none => []
  | .pushCatch l => [(.next, σ.prepare), (.label l, σ.prepare.handler)]
  | .enterTry _ _ => [(.next, σ.enter)]
  | .leaveTry l =>
    match σ.scopes with
    | height :: scopes => [(.label l, ⟨height, scopes, 0, 0⟩)]
    | [] => []
  | .exit height l scopes =>
    [(.label l, ⟨height.toNat, σ.scopes.drop (σ.scopes.length - scopes.toNat), 0, 0⟩)]
  | .returnTop | .returnNull | .finish => []

/-- A label leads to a place with a shape. -/
def Program.Leads (p : Program) (S : List Shape) (l : Label) (σ : Shape) : Prop :=
  ∃ i, p.target l = some i ∧ S[i]? = some σ

/-- The place that an exit of an instruction at `pc` leads to has a shape. -/
def Exit.Arrives (p : Program) (S : List Shape) (pc : Nat) : Exit → Shape → Prop
  | .next, σ => S[pc + 1]? = some σ
  | .label l, σ => p.Leads S l σ

/-- An instruction at `pc` is right for the shape there. -/
structure Op.Checks (p : Program) (S : List Shape) (pc : Nat) (σ : Shape) (op : Op) : Prop where
  bears : σ.Bears op.operands
  resolves : op.Resolves p
  suits : op.Suits σ
  arrives : ∀ x ∈ op.exits p σ, x.1.Arrives p S pc x.2

/-- Every instruction of a program is right for the shape of its place. -/
structure Program.Checked (p : Program) (S : List Shape) : Prop where
  start : S[0]? = some ⟨0, [], 0, 0⟩
  each : ∀ (pc : Nat) (op : Op) (σ : Shape), p.ops[pc]? = some op → S[pc]? = some σ → op.Checks p S pc σ

theorem Program.HasLabel.of_target {p : Program} {l : Label} {i : Nat} (h : p.target l = some i) :
    p.HasLabel l := by
  obtain ⟨jump, hjump, -⟩ := Option.map_eq_some_iff.mp h
  exact (Array.getElem?_eq_some_iff.mp hjump).1

theorem Program.Leads.hasLabel {p : Program} {S : List Shape} {l : Label} {σ : Shape}
    (h : p.Leads S l σ) : p.HasLabel l := by
  obtain ⟨i, hi, -⟩ := h
  exact .of_target hi

/-! ## Kinds of instructions -/

namespace Op.Checks

variable {p : Program} {S : List Shape} {pc : Nat} {σ τ ρ : Shape} {op : Op} {l : Label}

/-- An instruction that goes on at the next place. -/
theorem next (hexits : op.exits p σ = [(.next, τ)]) (hresolves : op.Resolves p)
    (hsuits : op.Suits σ) (hbears : σ.Bears op.operands) (hnext : S[pc + 1]? = some τ) :
    op.Checks p S pc σ where
  bears := hbears
  resolves := hresolves
  suits := hsuits
  arrives := by
    rw [hexits]
    intro x hx
    obtain rfl := List.mem_singleton.mp hx
    exact hnext

/-- An instruction that goes to a label. -/
theorem goto (hexits : op.exits p σ = [(.label l, ρ)]) (hresolves : op.Resolves p)
    (hsuits : op.Suits σ) (hbears : σ.Bears op.operands) (hlabel : p.Leads S l ρ) :
    op.Checks p S pc σ where
  bears := hbears
  resolves := hresolves
  suits := hsuits
  arrives := by
    rw [hexits]
    intro x hx
    obtain rfl := List.mem_singleton.mp hx
    exact hlabel

/-- An instruction that goes on at the next place or at a label. -/
theorem fork (hexits : op.exits p σ = [(.next, τ), (.label l, ρ)]) (hresolves : op.Resolves p)
    (hsuits : op.Suits σ) (hbears : σ.Bears op.operands) (hnext : S[pc + 1]? = some τ)
    (hlabel : p.Leads S l ρ) : op.Checks p S pc σ where
  bears := hbears
  resolves := hresolves
  suits := hsuits
  arrives := by
    rw [hexits]
    intro x hx
    rcases List.mem_cons.mp hx with rfl | hx
    · exact hnext
    · obtain rfl := List.mem_singleton.mp hx
      exact hlabel

end Op.Checks

end Lineage
