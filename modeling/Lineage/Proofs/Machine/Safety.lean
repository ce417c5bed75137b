/-
  Lineage.Proofs.Machine.Safety

  Checked programs run well.

  A frame that has the shape of its place (`Frame.Settled`) does not fault, and is
  settled again after every step.  What it raises finds only handlers that start in
  the right shape (`Frame.Guarded`): no instruction touches what was on the stack when
  the innermost open `try` body was entered, so that the stack can be cut back to it.
-/
import Lineage.Proofs.Machine.Frames
import Lineage.Proofs.Machine.Shapes

namespace Lineage

open Script (Name)

/-- Open `try` bodies were entered at the given heights, none lower than the ones around it, and
their handlers start in the right shape. -/
def ScopesMatch (p : Program) (S : List Shape) : List Nat → List Scope → Prop
  | [], [] => True
  | height :: heights, scope :: scopes =>
    scope.height = height ∧ (∀ h ∈ heights, h ≤ height) ∧
      (∀ c ∈ scope.handlers, p.Leads S c.2 ⟨height + 1, heights, 0, 0⟩) ∧
      ScopesMatch p S heights scopes
  | _, _ => False

namespace ScopesMatch

variable {p : Program} {S : List Shape} {heights : List Nat} {scopes : List Scope}

theorem length_eq (h : ScopesMatch p S heights scopes) : scopes.length = heights.length := by
  fun_induction ScopesMatch p S heights scopes with
  | case1 => rfl
  | case2 height heights scope scopes ih =>
    rw [List.length_cons, List.length_cons, ih h.2.2.2]
  | case3 => exact h.elim

theorem drop (h : ScopesMatch p S heights scopes) (n : Nat) :
    ScopesMatch p S (heights.drop n) (scopes.drop n) := by
  induction n generalizing heights scopes with
  | zero => exact h
  | succ n ih =>
    cases heights with
    | nil =>
      cases scopes with
      | nil => exact h
      | cons scope scopes => exact h.elim
    | cons height heights =>
      cases scopes with
      | nil => exact h.elim
      | cons scope scopes => exact ih h.2.2.2

end ScopesMatch

namespace Frame

/-- A frame has a shape. -/
structure Has (S : List Shape) (σ : Shape) (f : Frame) : Prop where
  height : f.stack.length = σ.height
  scopes : ScopesMatch f.program S σ.scopes f.scopes
  catches : ∀ c ∈ f.catches.take σ.prepared, f.program.Leads S c.2 σ.handler
  env : f.program.names.width ≤ f.env.size

/-- A frame has the shape of its place. -/
def Settled (S : List Shape) (f : Frame) : Prop := ∃ σ, S[f.pc]? = some σ ∧ f.Has S σ

/-- An error finds only handlers that start in the right shape. -/
structure Guarded (S : List Shape) (f : Frame) (heights : List Nat) : Prop where
  scopes : ScopesMatch f.program S heights f.scopes
  above : ∀ h ∈ heights, h ≤ f.stack.length
  env : f.program.names.width ≤ f.env.size

/-- A frame that has asked for something is settled with any answer, and guarded. -/
structure Awaiting (S : List Shape) (f : Frame) : Prop where
  answer : ∀ v, (f.push v).Settled S
  guarded : ∃ heights, f.Guarded S heights

end Frame

/-- What an instruction of a checked program comes to. -/
def Reply.Good (p : Program) (S : List Shape) : Reply → Prop
  | .next f => f.program = p ∧ f.Settled S
  | .raise _ f => f.program = p ∧ ∃ heights, f.Guarded S heights
  | .return _ => True
  | .ask _ f => f.program = p ∧ f.Awaiting S
  | .fault => False

namespace Frame

variable {S : List Shape} {σ τ : Shape} {f g : Frame}

/-! ## Frames beside each other -/

/-- Two frames differ only in their places, stacks, kept values and the contents of variables. -/
structure Beside (f g : Frame) : Prop where
  program : g.program = f.program
  scopes : g.scopes = f.scopes
  catches : g.catches = f.catches
  env : g.env.size = f.env.size

theorem Has.beside (h : f.Has S σ) (hg : f.Beside g) :
    g.Has S { σ with height := g.stack.length } where
  height := rfl
  scopes := by rw [hg.program, hg.scopes]; exact h.scopes
  catches := by rw [hg.program, hg.catches]; exact h.catches
  env := by rw [hg.program, hg.env]; exact h.env

/-- A frame is settled if its place has the shape it should have. -/
theorem Has.settled (h : f.Has S σ) (hg : f.Beside g) (hplace : S[g.pc]? = some τ)
    (hshape : { σ with height := g.stack.length } = τ) : g.Settled S :=
  ⟨τ, hplace, hshape ▸ h.beside hg⟩

/-- As long as no more is taken than the shape bears, errors find their handlers. -/
theorem Has.guarded (h : f.Has S σ) {n : Nat} (hbears : σ.Bears n) (hg : f.Beside g)
    (hstack : σ.height ≤ g.stack.length + n) : g.Guarded S σ.scopes where
  scopes := by rw [hg.program, hg.scopes]; exact h.scopes
  above := by
    intro x hx
    have hle := hbears.2 x hx
    omega
  env := by rw [hg.program, hg.env]; exact h.env

/-- A jump to a label that leads to the shape of the frame. -/
theorem Has.jump_good (h : f.Has S σ) {l : Label} (hl : f.program.Leads S l σ) :
    (f.jump l).Good f.program S := by
  obtain ⟨i, hi, hplace⟩ := hl
  rw [jump_target hi]
  exact ⟨rfl, σ, hplace, ⟨h.height, h.scopes, h.catches, h.env⟩⟩

/-- A result is left on the stack, or an error is raised. -/
theorem Has.finishWith_good (h : f.Has S σ) {n : Nat} (hbears : σ.Bears n) (hg : f.Beside g)
    (hstack : σ.height ≤ g.stack.length + n) (hplace : S[g.pc]? = some τ)
    (hshape : { σ with height := g.stack.length + 1 } = τ) (r : Except ScriptError Value) :
    (g.finishWith r).Good f.program S := by
  cases r with
  | error e => exact ⟨hg.program, _, h.guarded hbears hg hstack⟩
  | ok v => exact ⟨hg.program, h.settled ⟨hg.program, hg.scopes, hg.catches, hg.env⟩ hplace hshape⟩

/-- A request that is asked for without what it takes. -/
theorem Has.ask_good (h : f.Has S σ) {n : Nat} (hbears : σ.Bears n) (hg : f.Beside g)
    (hstack : σ.height ≤ g.stack.length + n) (hplace : S[g.pc]? = some τ)
    (hshape : { σ with height := g.stack.length + 1 } = τ) (r : Request) :
    (Reply.ask r g).Good f.program S :=
  ⟨hg.program,
    fun _ => h.settled ⟨hg.program, hg.scopes, hg.catches, hg.env⟩ hplace hshape,
    _, h.guarded hbears hg hstack⟩

theorem Has.raise_good (h : f.Has S σ) {n : Nat} (hbears : σ.Bears n) (hg : f.Beside g)
    (hstack : σ.height ≤ g.stack.length + n) (e : ScriptError) :
    (Reply.raise e g).Good f.program S :=
  ⟨hg.program, _, h.guarded hbears hg hstack⟩

theorem Has.next_good (h : f.Has S σ) (hg : f.Beside g) (hplace : S[g.pc]? = some τ)
    (hshape : { σ with height := g.stack.length } = τ) : (Reply.next g).Good f.program S :=
  ⟨hg.program, h.settled hg hplace hshape⟩

theorem length_cut {height : Nat} {stack : List Value} (h : height ≤ stack.length) :
    (cut height stack).length = height := by
  rw [cut, List.length_drop]
  omega

/-! ## Instructions -/

theorem exists_one {stack : List Value} (h : 1 ≤ stack.length) :
    ∃ a rest, stack = a :: rest :=
  List.exists_cons_of_length_pos h

theorem exists_two {stack : List Value} (h : 2 ≤ stack.length) :
    ∃ a b rest, stack = a :: b :: rest := by
  obtain ⟨a, tail, rfl⟩ := List.exists_cons_of_length_pos (Nat.lt_of_lt_of_le Nat.zero_lt_two h)
  obtain ⟨b, rest, rfl⟩ := List.exists_cons_of_length_pos (Nat.lt_of_succ_le (Nat.le_of_succ_le_succ h))
  exact ⟨a, b, rest, rfl⟩

theorem exists_three {stack : List Value} (h : 3 ≤ stack.length) :
    ∃ a b c rest, stack = a :: b :: c :: rest := by
  obtain ⟨a, tail, rfl⟩ := List.exists_cons_of_length_pos (Nat.lt_of_lt_of_le (Nat.zero_lt_succ 2) h)
  obtain ⟨b, c, rest, rfl⟩ := exists_two (Nat.le_of_succ_le_succ h)
  exact ⟨a, b, c, rest, rfl⟩

/-- A label that a checked instruction leads to. -/
theorem jump_exit {op : Op} {i : Nat} (hop : op.Checks f.program S i σ) {l : Label}
    (hexit : (Exit.label l, τ) ∈ op.exits f.program σ) (hf : f.Has S σ) (hg : f.Beside g)
    (hshape : { σ with height := g.stack.length } = τ) : (g.jump l).Good f.program S := by
  have hl : g.program.Leads S l τ := by
    rw [hg.program]
    exact hop.arrives _ hexit
  have hgood := (hshape ▸ hf.beside hg : g.Has S τ).jump_good hl
  rwa [hg.program] at hgood

/-- Going on or to a label, with the same shape. -/
theorem jumpUnless_good {op : Op} {i : Nat} (hop : op.Checks f.program S i σ) {l : Label}
    (hnext : S[g.pc]? = some τ) (hexit : (Exit.label l, τ) ∈ op.exits f.program σ)
    (hf : f.Has S σ) (hg : f.Beside g) (hshape : { σ with height := g.stack.length } = τ)
    (holds : Bool) : (g.jumpUnless holds l).Good f.program S := by
  cases holds with
  | true => exact hf.next_good hg hnext hshape
  | false => exact jump_exit hop hexit hf hg hshape

/-- Setting a variable that an instruction names. -/
theorem Has.bind_good {name : Name} (h : f.Has S σ) (hname : f.program.HasVariable name)
    (hg : f.Beside g) (hplace : S[g.pc]? = some τ) (hshape : { σ with height := g.stack.length } = τ)
    (v : Value) : (match g.bind name v with
      | some g => Reply.next g
      | none => .fault).Good f.program S := by
  have hslot : name.slot.toNat < g.env.size := by
    rw [hg.env]
    exact Nat.lt_of_lt_of_le hname h.env
  rw [bind_slot hslot]
  refine h.next_good ⟨hg.program, hg.scopes, hg.catches, ?_⟩ hplace hshape
  rw [← hg.env]
  exact Array.size_setIfInBounds

/-- The head of a loop over a list. -/
theorem stepForList_good {i : Nat} {name : Name} {l : Label}
    (hop : (Op.forList name l).Checks f.program S i σ) (hpc : f.pc = i + 1) (hf : f.Has S σ) :
    (f.stepForList name l).Good f.program S := by
  have hnext : S[f.pc]? = some σ := hpc ▸ hop.arrives _ List.mem_cons_self
  have hlen : 2 ≤ f.stack.length := hf.height ▸ hop.bears.1
  obtain ⟨counter, source, rest, hstack⟩ := exists_two hlen
  have hheight : σ.height = rest.length + 2 := by rw [← hf.height, hstack]; rfl
  have hleave : ({ f with stack := rest }.jump l).Good f.program S :=
    jump_exit hop (List.mem_cons_of_mem _ List.mem_cons_self) hf ⟨rfl, rfl, rfl, rfl⟩
      (Shape.down_eq hheight)
  have hraise := hf.raise_good (g := { f with stack := rest }) hop.bears ⟨rfl, rfl, rfl, rfl⟩
    (Nat.le_of_eq hheight)
  simp only [stepForList, hstack]
  split
  · split
    · exact hf.bind_good (g := { f with stack := _ :: _ :: rest }) hop.resolves.1
        ⟨rfl, rfl, rfl, rfl⟩ hnext (Shape.same_eq hheight) _
    · exact hleave
  · exact hraise _

/-- The head of a loop over numbers. -/
theorem stepForRange_good {i : Nat} {name : Name} {l : Label}
    (hop : (Op.forRange name l).Checks f.program S i σ) (hpc : f.pc = i + 1) (hf : f.Has S σ) :
    (f.stepForRange name l).Good f.program S := by
  have hnext : S[f.pc]? = some σ := hpc ▸ hop.arrives _ List.mem_cons_self
  have hlen : 2 ≤ f.stack.length := hf.height ▸ hop.bears.1
  obtain ⟨last, first, rest, hstack⟩ := exists_two hlen
  have hheight : σ.height = rest.length + 2 := by rw [← hf.height, hstack]; rfl
  have hleave : ({ f with stack := rest }.jump l).Good f.program S :=
    jump_exit hop (List.mem_cons_of_mem _ List.mem_cons_self) hf ⟨rfl, rfl, rfl, rfl⟩
      (Shape.down_eq hheight)
  have hraise := hf.raise_good (g := { f with stack := rest }) hop.bears ⟨rfl, rfl, rfl, rfl⟩
    (Nat.le_of_eq hheight)
  simp only [stepForRange, hstack]
  split
  · split
    · exact hleave
    · refine hf.bind_good (g := { f with stack := _ ++ rest }) hop.resolves.1 ⟨rfl, rfl, rfl, rfl⟩
        hnext (Shape.same_eq ?_) _
      rw [hheight]
      split <;> rfl
  · exact hraise _

/-- A scattering assignment sets variables of its table and goes on at a label of it. -/
theorem stepScatter_good {i : Nat} {slot : UInt16}
    (hop : (Op.scatter slot).Checks f.program S i σ) (hf : f.Has S σ) :
    (f.stepScatter slot).Good f.program S := by
  obtain ⟨t, ht, -, hnames⟩ := hop.resolves
  have hlen : 1 ≤ f.stack.length := hf.height ▸ hop.bears.1
  obtain ⟨source, rest, hstack⟩ := exists_one hlen
  have hheight : σ.height = rest.length + 1 := by rw [← hf.height, hstack]; rfl
  have hexit : ∀ l ∈ t.labels, (Exit.label l, σ) ∈ (Op.scatter slot).exits f.program σ := by
    intro l hl
    simp only [Op.exits, ht]
    exact List.mem_map_of_mem hl
  -- An error is raised with the source taken or, if the values do not fit the targets, with all in
  -- place.
  have hpopped := hf.raise_good (g := { f with stack := rest }) hop.bears ⟨rfl, rfl, rfl, rfl⟩
    (Nat.le_of_eq hheight)
  have hraise := hf.raise_good (g := f) hop.bears ⟨rfl, rfl, rfl, rfl⟩
    (Nat.le_trans (Nat.le_of_eq hf.height.symm) (Nat.le_add_right _ _))
  cases source with
  | list values =>
    rw [stepScatter_list ht hstack]
    cases hd : Scatter.distribute t values with
    | error e => exact hraise e
    | ok shares =>
      obtain ⟨restSize, hdeal⟩ := Scatter.distribute_ok hd
      have hslots : ∀ share ∈ shares.bound, share.1.slot.toNat < f.env.size := by
        intro share hshare
        obtain ⟨entry, hentry, hname⟩ := Scatter.deal_names hdeal share hshare
        have hlt := hnames entry hentry
        rw [hname] at hlt
        exact Nat.lt_of_lt_of_le hlt hf.env
      simp only [bindAll_slots hslots]
      -- Of the variables only their number counts.
      have hbeside := foldl_set_size shares.bound f.env
      generalize List.foldl _ f.env shares.bound = env at hbeside ⊢
      exact jump_exit (g := { f with env }) hop (hexit _ (ScatterTable.mem_labels hd)) hf
        ⟨rfl, rfl, rfl, hbeside⟩ (Shape.same_eq hf.height.symm)
  | _ =>
    simp only [stepScatter, ht, hstack]
    exact hpopped _

/-- A handler is prepared, with the codes on top of the stack. -/
theorem pushCatch_good {i : Nat} {l : Label} (hop : (Op.pushCatch l).Checks f.program S i σ)
    (hpc : f.pc = i + 1) (hf : f.Has S σ) : (f.perform (.pushCatch l)).Good f.program S := by
  have hnext : S[i + 1]? = some _ := hop.arrives _ List.mem_cons_self
  have hlead : f.program.Leads S l σ.prepare.handler :=
    hop.arrives _ (List.mem_cons_of_mem _ List.mem_cons_self)
  have hlen : 1 ≤ f.stack.length := hf.height ▸ hop.bears.1
  obtain ⟨p, pc, env, stack, scopes, kept, catches⟩ := f
  obtain rfl : pc = i + 1 := hpc
  obtain ⟨v, rest, rfl⟩ := exists_one hlen
  have hheight : rest.length = σ.height - 1 := by rw [← hf.height]; rfl
  refine ⟨rfl, _, hnext, hheight, hf.scopes, ?_, hf.env⟩
  intro c hc
  rcases List.mem_cons.mp hc with rfl | hc
  · exact hlead
  · -- The handlers that were prepared before go back to the height that this one goes back to.
    have hold := hf.catches c hc
    rcases hop.suits with hnone | hbase
    · rw [hnone] at hc
      cases hc
    · rwa [Shape.handler, hbase] at hold

/-- The handlers that are prepared become those of a body that is entered. -/
theorem enterTry_good {i : Nat} {count : UInt16} {l : Label}
    (hop : (Op.enterTry count l).Checks f.program S i σ) (hpc : f.pc = i + 1) (hf : f.Has S σ) :
    (f.perform (.enterTry count l)).Good f.program S := by
  have hnext : S[i + 1]? = some _ := hop.arrives _ List.mem_cons_self
  obtain ⟨hcount, hbase⟩ := hop.suits
  have hbears := hop.bears
  obtain ⟨p, pc, env, stack, scopes, kept, catches⟩ := f
  obtain rfl : pc = i + 1 := hpc
  refine ⟨rfl, _, hnext, hf.height, ⟨hf.height, hbears.2, ?_, hf.scopes⟩, ?_, hf.env⟩
  · intro c hc
    rw [hcount] at hc
    have hlead := hf.catches c (List.mem_reverse.mp hc)
    rcases hbase with hnone | hbase
    · rw [hnone] at hc
      cases hc
    · rwa [Shape.handler, hbase] at hlead
  · intro c hc
    cases hc

/-- A body is left: the stack is cut back to where it was when the body was entered. -/
theorem leaveTry_good {i : Nat} {l : Label} (hop : (Op.leaveTry l).Checks f.program S i σ)
    (hf : f.Has S σ) : (f.perform (.leaveTry l)).Good f.program S := by
  have hmatch := hf.scopes
  have hheight := hf.height
  have henv := hf.env
  obtain ⟨p, pc, env, stack, scopes, kept, catches⟩ := f
  cases hσ : σ.scopes with
  | nil => exact absurd hσ hop.suits
  | cons height heights =>
    rw [hσ] at hmatch
    cases scopes with
    | nil => exact hmatch.elim
    | cons scope scopes =>
      obtain ⟨rfl, -, -, hrest⟩ := hmatch
      have hlead : p.Leads S l ⟨scope.height, heights, 0, 0⟩ :=
        hop.arrives (.label l, _) (by rw [Op.exits, hσ]; exact List.mem_cons_self)
      have hle : scope.height ≤ stack.length := by
        rw [show stack.length = σ.height from hheight]
        exact hop.bears.2 _ (hσ ▸ List.mem_cons_self)
      have hhas : Has S ⟨scope.height, heights, 0, 0⟩
          ⟨p, pc, env, cut scope.height stack, scopes, kept, catches⟩ :=
        ⟨length_cut hle, hrest, fun _ hc => absurd hc List.not_mem_nil, henv⟩
      exact hhas.jump_good hlead

/-- A loop is left, and with it the bodies that were entered in it. -/
theorem exit_good {i : Nat} {height depth : UInt16} {l : Label}
    (hop : (Op.exit height l depth).Checks f.program S i σ) (hf : f.Has S σ) :
    (f.perform (.exit height l depth)).Good f.program S := by
  obtain ⟨hheight, -⟩ := hop.suits
  have hlead : f.program.Leads S l
      ⟨height.toNat, σ.scopes.drop (σ.scopes.length - depth.toNat), 0, 0⟩ :=
    hop.arrives _ List.mem_cons_self
  have hle : height.toNat ≤ f.stack.length := hf.height ▸ hheight
  have hhas : Has S ⟨height.toNat, σ.scopes.drop (σ.scopes.length - depth.toNat), 0, 0⟩
      { f with stack := cut height.toNat f.stack,
               scopes := f.scopes.drop (f.scopes.length - depth.toNat) } := by
    refine ⟨length_cut hle, ?_, fun _ hc => absurd hc List.not_mem_nil, hf.env⟩
    rw [hf.scopes.length_eq]
    exact hf.scopes.drop _
  exact hhas.jump_good hlead

/-- An instruction of a checked program is carried out well. -/
theorem perform_good {op : Op} {i : Nat} (hop : op.Checks f.program S i σ) (hpc : f.pc = i + 1)
    (hf : f.Has S σ) : (f.perform op).Good f.program S := by
  have hnext (τ : Shape) (h : (Exit.next, τ) ∈ op.exits f.program σ) : S[i + 1]? = some τ :=
    hop.arrives _ h
  have hbears := hop.bears
  have hstack := hf.height
  have henv := hf.env
  obtain ⟨p, pc, env, stack, scopes, kept, catches⟩ := f
  obtain rfl : pc = i + 1 := hpc
  replace hstack : stack.length = σ.height := hstack
  -- The shape says that the operands are there, so the stack can be taken apart in each case.
  have hlen : op.operands ≤ stack.length := by rw [hstack]; exact hbears.1
  cases op with
  | branch l | choose l | loopWhile l =>
    obtain ⟨v, rest, rfl⟩ := exists_one hlen
    exact jumpUnless_good (g := ⟨p, i + 1, env, rest, scopes, kept, catches⟩) hop
      (hnext _ List.mem_cons_self) (List.mem_cons_of_mem _ List.mem_cons_self) hf
      ⟨rfl, rfl, rfl, rfl⟩ (Shape.down_eq hstack.symm) v.truth
  | jump l =>
    exact jump_exit hop List.mem_cons_self hf ⟨rfl, rfl, rfl, rfl⟩ (Shape.same_eq hstack.symm)
  | forList name l => exact stepForList_good hop rfl hf
  | forRange name l => exact stepForRange_good hop rfl hf
  | pop =>
    obtain ⟨v, rest, rfl⟩ := exists_one hlen
    exact hf.next_good ⟨rfl, rfl, rfl, rfl⟩ (hnext _ List.mem_cons_self) (Shape.down_eq hstack.symm)
  | pushNull | pushInt n | pushFloat x | pushObj id | pushEmptyList | pushEmptyMap | pushKept =>
    exact hf.next_good ⟨rfl, rfl, rfl, rfl⟩ (hnext _ List.mem_cons_self)
      (Shape.up_eq (congrArg (· + 1) hstack.symm))
  | pushLiteral l =>
    have hl : l.slot.toNat < p.literals.size := hop.resolves
    rw [perform_pushLiteral, Array.getElem?_eq_getElem hl]
    exact hf.next_good ⟨rfl, rfl, rfl, rfl⟩ (hnext _ List.mem_cons_self)
      (Shape.up_eq (congrArg (· + 1) hstack.symm))
  | wrapList | keepTop | not =>
    obtain ⟨v, rest, rfl⟩ := exists_one hlen
    exact hf.next_good ⟨rfl, rfl, rfl, rfl⟩ (hnext _ List.mem_cons_self) (Shape.same_eq hstack.symm)
  | checkSplice =>
    obtain ⟨v, rest, rfl⟩ := exists_one hlen
    have hle : σ.height ≤ rest.length + 1 := Nat.le_of_eq hstack.symm
    have hraise := hf.raise_good (g := ⟨p, i + 1, env, rest, scopes, kept, catches⟩) hbears
      ⟨rfl, rfl, rfl, rfl⟩ hle
    cases v with
    | list items =>
      exact hf.next_good ⟨rfl, rfl, rfl, rfl⟩ (hnext _ List.mem_cons_self) (Shape.same_eq hstack.symm)
    | _ => exact hraise _
  | appendItem | binary f | index =>
    obtain ⟨b, a, rest, rfl⟩ := exists_two hlen
    have hle : σ.height ≤ rest.length + 2 := Nat.le_of_eq hstack.symm
    exact hf.finishWith_good (g := ⟨p, i + 1, env, rest, scopes, kept, catches⟩) hbears
      ⟨rfl, rfl, rfl, rfl⟩ hle (hnext _ List.mem_cons_self)
      (Shape.down_eq hstack.symm) _
  | appendList =>
    obtain ⟨b, a, rest, rfl⟩ := exists_two hlen
    have hle : σ.height ≤ rest.length + 2 := Nat.le_of_eq hstack.symm
    have hraise := hf.raise_good (g := ⟨p, i + 1, env, rest, scopes, kept, catches⟩) hbears
      ⟨rfl, rfl, rfl, rfl⟩ hle
    have happend := hf.finishWith_good (g := ⟨p, i + 1, env, rest, scopes, kept, catches⟩)
      hbears ⟨rfl, rfl, rfl, rfl⟩ hle (hnext _ List.mem_cons_self)
      (Shape.down_eq hstack.symm) (a.add b)
    cases a with
    | list items =>
      cases b with
      | list more => exact happend
      | _ => exact hraise _
    | _ => exact hraise _
  | indexSet | range =>
    obtain ⟨c, b, a, rest, rfl⟩ := exists_three hlen
    have hle : σ.height ≤ rest.length + 3 := Nat.le_of_eq hstack.symm
    exact hf.finishWith_good (g := ⟨p, i + 1, env, rest, scopes, kept, catches⟩) hbears
      ⟨rfl, rfl, rfl, rfl⟩ hle (hnext _ List.mem_cons_self)
      (Shape.down_eq hstack.symm) _
  | mapInsert =>
    obtain ⟨c, b, a, rest, rfl⟩ := exists_three hlen
    have hle : σ.height ≤ rest.length + 3 := Nat.le_of_eq hstack.symm
    have hraise := hf.raise_good (g := ⟨p, i + 1, env, rest, scopes, kept, catches⟩) hbears
      ⟨rfl, rfl, rfl, rfl⟩ hle
    cases b with
    | str text =>
      exact hf.finishWith_good (g := ⟨p, i + 1, env, rest, scopes, kept, catches⟩) hbears
        ⟨rfl, rfl, rfl, rfl⟩ hle (hnext _ List.mem_cons_self) (Shape.down_eq hstack.symm) _
    | _ => exact hraise _
  | both l =>
    obtain ⟨v, rest, rfl⟩ := exists_one hlen
    show Reply.Good p S (if v.truth = true then _ else _)
    by_cases hv : v.truth = true
    · rw [if_pos hv]
      exact hf.next_good ⟨rfl, rfl, rfl, rfl⟩ (hnext _ List.mem_cons_self) (Shape.down_eq hstack.symm)
    · rw [if_neg hv]
      exact jump_exit hop (List.mem_cons_of_mem _ List.mem_cons_self) hf ⟨rfl, rfl, rfl, rfl⟩
        (Shape.same_eq hstack.symm)
  | either l =>
    obtain ⟨v, rest, rfl⟩ := exists_one hlen
    show Reply.Good p S (if v.truth = true then _ else _)
    by_cases hv : v.truth = true
    · rw [if_pos hv]
      exact jump_exit hop (List.mem_cons_of_mem _ List.mem_cons_self) hf ⟨rfl, rfl, rfl, rfl⟩
        (Shape.same_eq hstack.symm)
    · rw [if_neg hv]
      exact hf.next_good ⟨rfl, rfl, rfl, rfl⟩ (hnext _ List.mem_cons_self) (Shape.down_eq hstack.symm)
  | negate =>
    obtain ⟨v, rest, rfl⟩ := exists_one hlen
    have hle : σ.height ≤ rest.length + 1 := Nat.le_of_eq hstack.symm
    exact hf.finishWith_good (g := ⟨p, i + 1, env, rest, scopes, kept, catches⟩) hbears
      ⟨rfl, rfl, rfl, rfl⟩ hle (hnext _ List.mem_cons_self)
      (Shape.same_eq hstack.symm) _
  | indexOver =>
    obtain ⟨b, a, rest, rfl⟩ := exists_two hlen
    -- The operands stay below the result.
    exact hf.finishWith_good (g := ⟨p, i + 1, env, b :: a :: rest, scopes, kept, catches⟩) hbears
      ⟨rfl, rfl, rfl, rfl⟩ (Nat.le_trans (Nat.le_of_eq hstack.symm) (Nat.le_add_right _ _))
      (hnext _ List.mem_cons_self) (Shape.up_eq (congrArg (· + 1) hstack.symm)) _
  | load name =>
    exact hf.finishWith_good (g := ⟨p, i + 1, env, stack, scopes, kept, catches⟩) hbears
      ⟨rfl, rfl, rfl, rfl⟩ (Nat.le_of_eq hstack.symm) (hnext _ List.mem_cons_self)
      (Shape.up_eq (congrArg (· + 1) hstack.symm)) _
  | store name =>
    obtain ⟨v, rest, rfl⟩ := exists_one hlen
    exact hf.bind_good (g := ⟨p, i + 1, env, v :: rest, scopes, kept, catches⟩) hop.resolves
      ⟨rfl, rfl, rfl, rfl⟩ (hnext _ List.mem_cons_self) (Shape.same_eq hstack.symm) v
  | getProp =>
    obtain ⟨b, a, rest, rfl⟩ := exists_two hlen
    have hle : σ.height ≤ rest.length + 2 := Nat.le_of_eq hstack.symm
    exact hf.ask_good (g := ⟨p, i + 1, env, rest, scopes, kept, catches⟩) hbears
      ⟨rfl, rfl, rfl, rfl⟩ hle (hnext _ List.mem_cons_self)
      (Shape.down_eq hstack.symm) _
  | getPropOver =>
    obtain ⟨b, a, rest, rfl⟩ := exists_two hlen
    exact hf.ask_good (g := ⟨p, i + 1, env, b :: a :: rest, scopes, kept, catches⟩) hbears
      ⟨rfl, rfl, rfl, rfl⟩ (Nat.le_trans (Nat.le_of_eq hstack.symm) (Nat.le_add_right _ _))
      (hnext _ List.mem_cons_self) (Shape.up_eq (congrArg (· + 1) hstack.symm)) _
  | putProp | callMethod =>
    obtain ⟨c, b, a, rest, rfl⟩ := exists_three hlen
    have hle : σ.height ≤ rest.length + 3 := Nat.le_of_eq hstack.symm
    exact hf.ask_good (g := ⟨p, i + 1, env, rest, scopes, kept, catches⟩) hbears
      ⟨rfl, rfl, rfl, rfl⟩ hle (hnext _ List.mem_cons_self)
      (Shape.down_eq hstack.symm) _
  | returnTop =>
    obtain ⟨v, rest, rfl⟩ := exists_one hlen
    trivial
  | returnNull | finish => trivial
  | callBuiltin f =>
    obtain ⟨v, rest, rfl⟩ := exists_one hlen
    have hle : σ.height ≤ rest.length + 1 := Nat.le_of_eq hstack.symm
    have hraise := hf.raise_good (g := ⟨p, i + 1, env, rest, scopes, kept, catches⟩) hbears
      ⟨rfl, rfl, rfl, rfl⟩ hle
    cases v with
    | list args =>
      exact hf.ask_good (g := ⟨p, i + 1, env, rest, scopes, kept, catches⟩) hbears
        ⟨rfl, rfl, rfl, rfl⟩ hle (hnext _ List.mem_cons_self) (Shape.same_eq hstack.symm) _
    | _ => exact hraise _
  | scatter slot => exact stepScatter_good hop hf
  | pushCatch l => exact pushCatch_good hop rfl hf
  | enterTry count l => exact enterTry_good hop rfl hf
  | leaveTry l => exact leaveTry_good hop hf
  | exit height l depth => exact exit_good hop hf

/-- A settled frame of a checked program does not fault, and stays settled. -/
theorem step_good (hp : f.program.Checked S) (hf : f.Settled S) : f.step.Good f.program S := by
  obtain ⟨σ, hplace, hhas⟩ := hf
  simp only [step]
  cases hop : f.program.ops[f.pc]? with
  | none => trivial
  | some op =>
    exact perform_good (f := { f with pc := f.pc + 1 }) (hp.each _ _ _ hop hplace) rfl
      ⟨hhas.height, hhas.scopes, hhas.catches, hhas.env⟩

/-- A handler that takes an error starts in the right shape. -/
theorem handler_settled {code : ErrorCode} {e : Value} {scopes : List Scope} {heights : List Nat}
    {l : Label} {g : Frame} (hg : f.handler? code scopes = some (l, g))
    (hmatch : ScopesMatch f.program S heights scopes) (habove : ∀ h ∈ heights, h ≤ f.stack.length)
    (henv : f.program.names.width ≤ f.env.size) :
    ∃ h, (g.push e).jump l = .next h ∧ h.program = f.program ∧ h.Settled S := by
  induction scopes generalizing f heights with
  | nil => cases hg
  | cons scope scopes ih =>
    cases heights with
    | nil => exact hmatch.elim
    | cons height heights =>
      obtain ⟨rfl, hsorted, hhandlers, hrest⟩ := hmatch
      have hcut := length_cut (habove _ List.mem_cons_self)
      simp only [handler?] at hg
      cases hfind : scope.handlers.find? fun h => h.1.accepts code with
      | some handler =>
        rw [hfind] at hg
        obtain ⟨rfl, rfl⟩ := Prod.mk.inj (Option.some.inj hg)
        obtain ⟨i, hi, hplace⟩ := hhandlers handler (List.mem_of_find?_eq_some hfind)
        refine ⟨_, jump_target hi, rfl, _, hplace, ?_, hrest, fun _ hc => absurd hc List.not_mem_nil, henv⟩
        exact congrArg (· + 1) hcut
      | none =>
        rw [hfind] at hg
        refine ih (f := { f with scopes, stack := cut scope.height f.stack }) hg hrest ?_ henv
        intro h hh
        show h ≤ (cut scope.height f.stack).length
        rw [hcut]
        exact hsorted h hh

end Frame

end Lineage
