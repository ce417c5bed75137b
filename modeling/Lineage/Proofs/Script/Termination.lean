/-
  Lineage.Proofs.Script.Termination

  The evaluation of a tame script comes to an end.

  A script is tame if it has no `while` statement and does not call the function that sets
  methods.  With methods it could set, a script might bring in code that is not tame.

  `Ends I x Q`: from every world with `I`, with enough fuel, the evaluation `x` comes to an
  end, in a value or an error, in a world with `I`; it does not matter how much more fuel it
  has.  Only what is asked of the world may need fuel: the values that a loop goes over are
  settled before it starts, and nothing that its body does changes them.  By recursion on the
  tree, an evaluation ends if whatever it asks of the world does.

  That nothing is done that code must never do is read off the layout of the code.
-/
import Lineage.Builtin.Table
import Lineage.Proofs.Program.Layout
import Lineage.Proofs.Script.Evaluation
import Lineage.Script.Tree

namespace Lineage.Script

mutual

/-- No call of `set_method`. -/
def Expr.tame : Expr → Bool
  | .assign target value => target.tame && value.tame
  | .value _ | .var _ => true
  | .binary _ left right | .and left right | .or left right => left.tame && right.tame
  | .unary _ operand => operand.tame
  | .prop object property => object.tame && property.tame
  | .call function args => Builtin.find? function != some .setMethod && tameArgs args
  | .verb object name args => object.tame && name.tame && tameArgs args
  | .range base first last => base.tame && first.tame && last.tame
  | .cond condition consequence alternative =>
    condition.tame && consequence.tame && alternative.tame
  | .index base index => base.tame && index.tame
  | .list items => tameArgs items
  | .map entries => tameEntries entries
  | .scatter targets source => tameTargets targets && source.tame

def tameArgs : List Arg → Bool
  | [] => true
  | .item e :: rest | .splice e :: rest => e.tame && tameArgs rest

def tameEntries : List (Expr × Expr) → Bool
  | [] => true
  | (key, value) :: rest => key.tame && value.tame && tameEntries rest

def tameTargets : List Target → Bool
  | [] => true
  | .required _ :: rest | .rest _ :: rest | .optional _ none :: rest => tameTargets rest
  | .optional _ (some default) :: rest => default.tame && tameTargets rest

end

def Codes.tame : Codes → Bool
  | .any => true
  | .listed codes => tameArgs codes

mutual

/-- Neither a `while` statement nor a call of `set_method`. -/
def Stmt.tame : Stmt → Bool
  | .mk _ _ node => node.tame

def StmtNode.tame : StmtNode → Bool
  | .branch arms otherwise => tameArms arms &&
    (match otherwise with
      | some body => tameBlock body
      | none => true)
  | .forList _ source body => source.tame && tameBlock body
  | .forRange _ first last body => first.tame && last.tame && tameBlock body
  | .while _ _ => false
  | .try body handlers => tameBlock body && tameHandlers handlers
  | .break | .continue | .return none => true
  | .return (some e) | .expr e => e.tame

def tameBlock : List Stmt → Bool
  | [] => true
  | stmt :: rest => stmt.tame && tameBlock rest

def tameArms : List (Expr × List Stmt) → Bool
  | [] => true
  | (condition, body) :: rest => condition.tame && tameBlock body && tameArms rest

def tameHandlers : List Handler → Bool
  | [] => true
  | .mk _ codes body :: rest => codes.tame && tameBlock body && tameHandlers rest

end

def SyntaxTree.tame (tree : SyntaxTree) : Bool := tameBlock tree.statements

/-! ## Evaluations that end -/

variable {I : World → Prop} {α β : Type}

/-- What an evaluation comes to, however much fuel it has once that is enough.  The value may hold
evaluations, which may need fuel in their turn. -/
inductive Ended (I : World → Prop) (Q : (Nat → α) → Prop)
    (r : Nat → Option (Except Stop α × Env × World)) : Prop
  | value {a : Nat → α} {env : Env} {w : World} (n : Nat) (ha : Q a) (hw : I w)
      (h : ∀ fuel, n ≤ fuel → r fuel = some (.ok (a fuel), env, w))
  | error {e : ScriptError} {env : Env} {w : World} (n : Nat) (hw : I w)
      (h : ∀ fuel, n ≤ fuel → r fuel = some (.error (.raised e), env, w))

/-- What comes to the same once there is fuel. -/
theorem Ended.after {Q : (Nat → α) → Prop} {r s : Nat → Option (Except Stop α × Env × World)}
    {n : Nat} (h : Ended I Q s) (hr : ∀ fuel, n ≤ fuel → r fuel = s fuel) : Ended I Q r := by
  cases h with
  | value m ha hw hs =>
    exact .value (max n m) ha hw fun fuel hfuel =>
      (hr fuel (Nat.le_trans (Nat.le_max_left n m) hfuel)).trans
        (hs fuel (Nat.le_trans (Nat.le_max_right n m) hfuel))
  | error m hw hs =>
    exact .error (max n m) hw fun fuel hfuel =>
      (hr fuel (Nat.le_trans (Nat.le_max_left n m) hfuel)).trans
        (hs fuel (Nat.le_trans (Nat.le_max_right n m) hfuel))

/-- From every world with `I` an evaluation comes to an end. -/
def Ends (I : World → Prop) (x : Nat → Eval α) (Q : (Nat → α) → Prop) : Prop :=
  ∀ env w, I w → Ended I Q fun fuel => x fuel env w

/-- A value with `P`, which does not depend on the fuel. -/
def Always (P : α → Prop) (a : Nat → α) : Prop := ∃ c, P c ∧ a = fun _ => c

/-- Any value that does not depend on the fuel. -/
abbrev Plain : (Nat → α) → Prop := Always fun _ => True

/-- What a request asks for is not to set a method. -/
def Tame (q : Request) : Prop := ∀ args, q ≠ .callBuiltin .setMethod args

namespace Ends

variable {Q : (Nat → α) → Prop} {R : (Nat → β) → Prop} {P : α → Prop}

theorem bind {x : Nat → Eval α} {f : Nat → α → Eval β} (hx : Ends I x Q)
    (hf : ∀ a, Q a → Ends I (fun fuel => f fuel (a fuel)) R) :
    Ends I (fun fuel => x fuel >>= f fuel) R := by
  intro env w hw
  cases hx env w hw with
  | @error e env₁ w₁ n hw₁ h =>
    have hfirst (fuel : Nat) (hfuel : n ≤ fuel) :
        (x fuel >>= f fuel) env w = some (.error (.raised e), env₁, w₁) := by
      rw [Eval.bind_apply, h fuel hfuel]
    exact .error n hw₁ hfirst
  | @value a env₁ w₁ n ha hw₁ h =>
    have hthen {fuel : Nat} (hfuel : n ≤ fuel) :
        (x fuel >>= f fuel) env w = f fuel (a fuel) env₁ w₁ := by
      rw [Eval.bind_apply, h fuel hfuel]
    exact (hf a ha env₁ w₁ hw₁).after fun fuel hfuel => hthen hfuel

/-- The same for values that do not depend on the fuel. -/
theorem andThen {x : Nat → Eval α} {f : Nat → α → Eval β} (hx : Ends I x (Always P))
    (hf : ∀ a, P a → Ends I (fun fuel => f fuel a) R) : Ends I (fun fuel => x fuel >>= f fuel) R :=
  hx.bind fun _ ⟨c, hc, ha⟩ => ha ▸ hf c hc

theorem gives {a : Nat → α} (ha : Q a) : Ends I (fun fuel => pure (a fuel)) Q := fun _ _ hw =>
  .value 0 ha hw fun _ _ => rfl

theorem pure {a : α} (ha : P a) : Ends I (fun _ => Pure.pure a) (Always P) := gives ⟨a, ha, rfl⟩

theorem raise (e : ScriptError) : Ends I (fun _ => Eval.raise e) Q := fun _ _ hw =>
  .error 0 hw fun _ _ => rfl

theorem of (r : Except ScriptError α) : Ends I (fun _ => Eval.of r) Plain := by
  cases r with
  | ok a => exact pure trivial
  | error e => exact raise e

theorem get (names : Names) (name : Name) : Ends I (fun _ => Eval.get names name) Plain := by
  intro env w hw
  have hread : (∃ v, Eval.get names name env w = some (.ok v, env, w)) ∨
      ∃ e, Eval.get names name env w = some (.error (.raised e), env, w) := by
    rw [Eval.get]
    split
    · exact .inl ⟨_, rfl⟩
    · exact .inr ⟨_, rfl⟩
  obtain ⟨v, h⟩ | ⟨e, h⟩ := hread
  · exact .value 0 ⟨v, trivial, rfl⟩ hw fun _ _ => h
  · exact .error 0 hw fun _ _ => h

theorem set (name : Name) (v : Value) : Ends I (fun _ => Eval.set name v) Plain := fun _ _ hw =>
  .value 0 ⟨(), trivial, rfl⟩ hw fun _ _ => rfl

theorem setAll (bound : List (Name × Value)) : Ends I (fun _ => Eval.setAll bound) Plain := by
  induction bound with
  | nil => exact pure trivial
  | cons share rest ih => exact (set share.1 share.2).andThen fun _ _ => ih

/-- After an error another evaluation goes on. -/
theorem rescue {x : Nat → Eval α} {handle : Nat → ScriptError → Eval α} (hx : Ends I x Q)
    (hhandle : ∀ e, Ends I (fun fuel => handle fuel e) Q) :
    Ends I (fun fuel => Eval.rescue (x fuel) (handle fuel)) Q := by
  intro env w hw
  cases hx env w hw with
  | @value a env₁ w₁ n ha hw₁ h =>
    have hfirst (fuel : Nat) (hfuel : n ≤ fuel) :
        Eval.rescue (x fuel) (handle fuel) env w = some (.ok (a fuel), env₁, w₁) := by
      rw [Eval.rescue, h fuel hfuel]
    exact .value n ha hw₁ hfirst
  | @error e env₁ w₁ n hw₁ h =>
    have hthen {fuel : Nat} (hfuel : n ≤ fuel) :
        Eval.rescue (x fuel) (handle fuel) env w = handle fuel e env₁ w₁ := by
      rw [Eval.rescue, h fuel hfuel]
    exact (hhandle e env₁ w₁ hw₁).after fun fuel hfuel => hthen hfuel

theorem choose {c : Bool} {x y : Nat → Eval α} (hx : Ends I x Q) (hy : Ends I y Q) :
    Ends I (fun fuel => if c then x fuel else y fuel) Q := by
  cases c with
  | true => exact hx
  | false => exact hy

end Ends

/-! ## Loops -/

/-- Control leaves a statement by `break` or `continue` only inside of a loop. -/
def Flow.Stays (site : Site) : Flow → Prop
  | .break | .continue => site.loop ≠ none
  | .next | .return _ => True

section

variable {site : Site} {body : Nat → Eval Flow} {P : Flow → Prop}

/-- However the body ends, the loop goes round again or is left. -/
theorem again_ends {next : Nat → Eval Flow} (hnext : Ends I next (Always (Flow.Stays site)))
    (flow : Flow) : Ends I (fun fuel => flow.again (next fuel)) (Always (Flow.Stays site)) := by
  cases flow with
  | next | «continue» => exact hnext
  | «break» => exact .pure trivial
  | «return» v => exact .pure trivial

variable (hbody : Ends I body (Always P))
include hbody

/-- Induction on the elements that are left. -/
theorem forEach_ends (name : Name) (items : List Value) :
    Ends I (fun fuel => forEach name (body fuel) items) (Always (Flow.Stays site)) := by
  induction items with
  | nil => exact .pure trivial
  | cons v rest ih =>
    exact (Ends.set name v).andThen fun _ _ => hbody.andThen fun flow _ => again_ends ih flow

/-- Induction on how many numbers are left. -/
theorem forCount_ends (name : Name) (count : Nat) (first : Int64) :
    Ends I (fun fuel => forCount name (body fuel) count first) (Always (Flow.Stays site)) := by
  induction count generalizing first with
  | zero => exact .pure trivial
  | succ count ih =>
    exact (Ends.set name (.int first)).andThen fun _ _ => hbody.andThen fun flow _ =>
      again_ends (ih (first + 1)) flow

end

/-! ## Expressions -/

section

-- What the mutual recursion passes on counts as not used.
set_option linter.unusedSectionVars false

variable {p : Program} {names : Names} {call : Activation} {depth : Nat}
  (hask : ∀ q, Tame q → Ends I (fun fuel => (Scene.mk names call depth fuel).ask q) Plain)

/-- A place that can be read and written. -/
structure Usable (I : World → Prop) (place : Nat → Place) : Prop where
  read : Ends I (fun fuel => (place fuel).read) Plain
  write (v : Value) : Ends I (fun fuel => (place fuel).write v) Plain

include hask

theorem usable_property (o q : Value) :
    Usable I fun fuel => .property (Scene.mk names call depth fuel) o q where
  read := hask _ nofun
  write v := (hask (.putProp o q v) nofun).andThen fun _ _ => .pure trivial

omit hask in
theorem usable_named (name : Name) :
    Usable I fun fuel => .named (Scene.mk names call depth fuel) name where
  read := .get names name
  write v := .set name v

omit hask in
theorem Usable.element {outer : Nat → Place} (houter : Usable I outer) (container i : Value) :
    Usable I fun fuel => .element (outer fuel) container i where
  read := .of _
  write v := (Ends.of (container.indexSet i v)).andThen fun changed _ => houter.write changed

mutual

theorem Expr.ends (e : Expr) (ht : e.tame = true) {i j : Nat} (hat : Expr.At p e i j) :
    Ends I (fun fuel => e.eval (Scene.mk names call depth fuel)) Plain := by
  cases e with
  | value v =>
    simp only [Expr.eval]
    exact .pure trivial
  | var name =>
    simp only [Expr.eval]
    exact .get names name
  | and left right =>
    simp only [Expr.tame, Bool.and_eq_true] at ht
    simp only [Expr.At] at hat
    obtain ⟨k, done, hl, -, hr, -⟩ := hat
    simp only [Expr.eval]
    exact (Expr.ends left ht.1 hl).andThen fun v _ =>
      .choose (Expr.ends right ht.2 hr) (.pure trivial)
  | or left right =>
    simp only [Expr.tame, Bool.and_eq_true] at ht
    simp only [Expr.At] at hat
    obtain ⟨k, done, hl, -, hr, -⟩ := hat
    simp only [Expr.eval]
    exact (Expr.ends left ht.1 hl).andThen fun v _ =>
      .choose (.pure trivial) (Expr.ends right ht.2 hr)
  | binary op left right =>
    simp only [Expr.tame, Bool.and_eq_true] at ht
    simp only [Expr.At] at hat
    obtain ⟨k, m, hl, hr, -⟩ := hat
    simp only [Expr.eval]
    exact (Expr.ends left ht.1 hl).andThen fun a _ => (Expr.ends right ht.2 hr).andThen fun b _ => .of _
  | unary op operand =>
    simp only [Expr.tame] at ht
    cases op with
    | neg =>
      simp only [Expr.At] at hat
      obtain ⟨k, ho, -⟩ := hat
      simp only [Expr.eval]
      exact (Expr.ends operand ht ho).andThen fun v _ => .of _
    | not =>
      simp only [Expr.At] at hat
      obtain ⟨k, ho, -⟩ := hat
      simp only [Expr.eval]
      exact (Expr.ends operand ht ho).andThen fun v _ => .pure trivial
  | index base index =>
    simp only [Expr.tame, Bool.and_eq_true] at ht
    simp only [Expr.At] at hat
    obtain ⟨k, m, hb, hi, -⟩ := hat
    simp only [Expr.eval]
    exact (Expr.ends base ht.1 hb).andThen fun b _ => (Expr.ends index ht.2 hi).andThen fun i _ => .of _
  | range base first last =>
    simp only [Expr.tame, Bool.and_eq_true] at ht
    simp only [Expr.At] at hat
    obtain ⟨k, m, n, hb, hf, hl, -⟩ := hat
    simp only [Expr.eval]
    exact (Expr.ends base ht.1.1 hb).andThen fun b _ => (Expr.ends first ht.1.2 hf).andThen fun i _ =>
      (Expr.ends last ht.2 hl).andThen fun j _ => .of _
  | prop object property =>
    simp only [Expr.tame, Bool.and_eq_true] at ht
    simp only [Expr.At] at hat
    obtain ⟨k, m, ho, hp, -⟩ := hat
    simp only [Expr.eval]
    exact (Expr.ends object ht.1 ho).andThen fun o _ => (Expr.ends property ht.2 hp).andThen fun q _ =>
      hask _ nofun
  | call function args =>
    simp only [Expr.tame, Bool.and_eq_true, bne_iff_ne] at ht
    simp only [Expr.At] at hat
    obtain ⟨f, k, hf, ha, -⟩ := hat
    simp only [Expr.eval, hf]
    -- The function that the name stands for is not the one that sets methods.
    refine (args_end args ht.2 ha).andThen fun vs _ => hask _ fun args hq => ?_
    cases hq
    exact ht.1 hf
  | verb object name args =>
    simp only [Expr.tame, Bool.and_eq_true] at ht
    simp only [Expr.At] at hat
    obtain ⟨k, m, n, ho, hn, ha, -⟩ := hat
    simp only [Expr.eval]
    exact (Expr.ends object ht.1.1 ho).andThen fun o _ => (Expr.ends name ht.1.2 hn).andThen fun n _ =>
      (args_end args ht.2 ha).andThen fun vs _ => hask _ nofun
  | cond condition consequence alternative =>
    simp only [Expr.tame, Bool.and_eq_true] at ht
    simp only [Expr.At] at hat
    obtain ⟨k, m, otherwise, done, hc, -, hy, -, -, hn, -⟩ := hat
    simp only [Expr.eval]
    exact (Expr.ends condition ht.1.1 hc).andThen fun v _ =>
      .choose (Expr.ends consequence ht.1.2 hy) (Expr.ends alternative ht.2 hn)
  | list items =>
    simp only [Expr.tame] at ht
    simp only [Expr.At] at hat
    simp only [Expr.eval]
    exact (args_end items ht hat).andThen fun vs _ => .pure trivial
  | map entries =>
    simp only [Expr.tame] at ht
    simp only [Expr.At] at hat
    simp only [Expr.eval]
    exact entries_end entries ht hat.2 _
  | scatter targets source =>
    simp only [Expr.tame, Bool.and_eq_true] at ht
    simp only [Expr.At] at hat
    obtain ⟨k, slot, table, hs, -, -, hd, -⟩ := hat
    simp only [Expr.eval]
    refine (Expr.ends source ht.2 hs).andThen fun v _ => ?_
    cases v with
    | list values =>
      exact (Ends.of _).andThen fun shares _ => (Ends.setAll shares.bound).andThen fun _ _ =>
        (defaults_end targets ht.1 hd _).andThen fun _ _ => .pure trivial
    | _ => exact .raise _
  | assign target value =>
    simp only [Expr.tame, Bool.and_eq_true] at ht
    simp only [Expr.At] at hat
    obtain ⟨k, m, hl, hv, -⟩ := hat
    simp only [Expr.eval]
    -- The place may need fuel to be written to, so it is not the same for all fuel.
    exact (Expr.place_ends target ht.1 hl).bind fun place hplace =>
      (Expr.ends value ht.2 hv).andThen fun v _ => (hplace.write v).andThen fun _ _ => .pure trivial

/-- Working out a place ends, and the place can be used. -/
theorem Expr.place_ends (target : Expr) (ht : target.tame = true) {inner : Bool} {i j : Nat}
    (hat : LocationAt p inner target i j) :
    Ends I (fun fuel => target.place (Scene.mk names call depth fuel)) (Usable I) := by
  cases target with
  | var name =>
    simp only [Expr.place]
    exact .gives (usable_named name)
  | prop object property =>
    simp only [Expr.tame, Bool.and_eq_true] at ht
    simp only [LocationAt] at hat
    obtain ⟨k, m, ho, hp, -⟩ := hat
    simp only [Expr.place]
    exact (Expr.ends object ht.1 ho).andThen fun o _ => (Expr.ends property ht.2 hp).andThen fun q _ =>
      .gives (usable_property hask o q)
  | index base index =>
    simp only [Expr.tame, Bool.and_eq_true] at ht
    simp only [LocationAt] at hat
    obtain ⟨k, m, hb, hi, -⟩ := hat
    simp only [Expr.place]
    exact (Expr.place_ends base ht.1 hb).bind fun outer houter => houter.read.andThen fun container _ =>
      (Expr.ends index ht.2 hi).andThen fun i _ => .gives (houter.element container i)
  | _ => simp only [LocationAt] at hat

theorem args_end (args : List Arg) (ht : tameArgs args = true) {i j : Nat} (hat : ArgsAt p args i j) :
    Ends I (fun fuel => evalArgs (Scene.mk names call depth fuel) args) Plain := by
  match args with
  | [] =>
    simp only [evalArgs]
    exact .pure trivial
  | .item e :: rest =>
    simp only [tameArgs, Bool.and_eq_true] at ht
    simp only [ArgsAt] at hat
    obtain ⟨k, he, -, hrest⟩ := hat
    simp only [evalArgs]
    exact (Expr.ends e ht.1 he).andThen fun v _ => moreArgs_end rest ht.2 hrest _
  | .splice e :: rest =>
    simp only [tameArgs, Bool.and_eq_true] at ht
    simp only [ArgsAt] at hat
    obtain ⟨k, he, -, hrest⟩ := hat
    simp only [evalArgs]
    refine (Expr.ends e ht.1 he).andThen fun v _ => ?_
    cases v with
    | list vs => exact moreArgs_end rest ht.2 hrest vs
    | _ => exact .raise _

theorem moreArgs_end (args : List Arg) (ht : tameArgs args = true) {i j : Nat}
    (hat : MoreArgsAt p args i j) (done : List Value) :
    Ends I (fun fuel => evalMoreArgs (Scene.mk names call depth fuel) done args) Plain := by
  match args with
  | [] =>
    simp only [evalMoreArgs]
    exact .pure trivial
  | .item e :: rest =>
    simp only [tameArgs, Bool.and_eq_true] at ht
    simp only [MoreArgsAt] at hat
    obtain ⟨k, he, -, hrest⟩ := hat
    simp only [evalMoreArgs]
    exact (Expr.ends e ht.1 he).andThen fun v _ => moreArgs_end rest ht.2 hrest _
  | .splice e :: rest =>
    simp only [tameArgs, Bool.and_eq_true] at ht
    simp only [MoreArgsAt] at hat
    obtain ⟨k, he, -, hrest⟩ := hat
    simp only [evalMoreArgs]
    refine (Expr.ends e ht.1 he).andThen fun v _ => ?_
    cases v with
    | list vs => exact moreArgs_end rest ht.2 hrest (done ++ vs)
    | _ => exact .raise _

theorem entries_end (entries : List (Expr × Expr)) (ht : tameEntries entries = true) {i j : Nat}
    (hat : EntriesAt p entries i j) (m : Value) :
    Ends I (fun fuel => evalEntries (Scene.mk names call depth fuel) m entries) Plain := by
  match entries with
  | [] =>
    simp only [evalEntries]
    exact .pure trivial
  | (key, value) :: rest =>
    simp only [tameEntries, Bool.and_eq_true] at ht
    simp only [EntriesAt] at hat
    obtain ⟨k, n, hk, hv, -, hrest⟩ := hat
    simp only [evalEntries]
    refine (Expr.ends key ht.1.1 hk).andThen fun k _ => (Expr.ends value ht.1.2 hv).andThen fun v _ => ?_
    cases k with
    | str s => exact (Ends.of _).andThen fun m' _ => entries_end rest ht.2 hrest m'
    | _ => exact .raise _

theorem defaults_end (targets : List Target) (ht : tameTargets targets = true)
    {entries : List ScatterEntry} {i j : Nat} (hat : DefaultsAt p targets entries i j) (taken : Nat) :
    Ends I (fun fuel => evalDefaults (Scene.mk names call depth fuel) taken targets) Plain := by
  match targets with
  | [] =>
    simp only [evalDefaults]
    exact .pure trivial
  | .required name :: targets =>
    simp only [tameTargets] at ht
    simp only [DefaultsAt] at hat
    obtain ⟨rest, -, hrest⟩ := hat
    simp only [evalDefaults]
    exact defaults_end targets ht hrest taken
  | .rest name :: targets =>
    simp only [tameTargets] at ht
    simp only [DefaultsAt] at hat
    obtain ⟨rest, -, hrest⟩ := hat
    simp only [evalDefaults]
    exact defaults_end targets ht hrest taken
  | .optional name none :: targets =>
    simp only [tameTargets] at ht
    simp only [DefaultsAt] at hat
    obtain ⟨rest, -, hrest⟩ := hat
    simp only [evalDefaults]
    exact defaults_end targets ht hrest (taken - 1)
  | .optional name (some default) :: targets =>
    simp only [tameTargets, Bool.and_eq_true] at ht
    simp only [DefaultsAt] at hat
    obtain ⟨label, rest, k, -, -, hd, -, -, hrest⟩ := hat
    simp only [evalDefaults]
    cases taken with
    | succ taken => exact defaults_end targets ht.2 hrest taken
    | zero =>
      exact (Expr.ends default ht.1 hd).andThen fun v _ => (Ends.set name v).andThen fun _ _ =>
        defaults_end targets ht.2 hrest 0

end

/-! ## Statements -/

theorem codes_end (codes : Codes) (ht : codes.tame = true) {i j : Nat} (hat : Codes.At p codes i j) :
    Ends I (fun fuel => codes.eval (Scene.mk names call depth fuel)) Plain := by
  cases codes with
  | any => exact .pure trivial
  | listed args => exact (args_end hask args ht hat).andThen fun vs _ => .pure trivial

theorem catches_end (handlers : List Handler) (ht : tameHandlers handlers = true)
    {labels : List Label} {i j : Nat} (hat : CatchesAt p handlers labels i j) :
    Ends I (fun fuel => evalCatches (Scene.mk names call depth fuel) handlers) Plain := by
  induction handlers generalizing labels i with
  | nil => exact .pure trivial
  | cons handler handlers ih =>
    obtain ⟨name, codes, body⟩ := handler
    simp only [tameHandlers, Bool.and_eq_true] at ht
    obtain ⟨label, more, k, -, hcodes, -, hmore⟩ := hat
    exact (codes_end hask codes ht.1.1 hcodes).andThen fun c _ => (ih ht.2 hmore).andThen fun cs _ =>
      .pure trivial

mutual

theorem stmt_ends (stmt : Stmt) (ht : stmt.tame = true) {site : Site} {i j : Nat}
    (hat : Stmt.At p site stmt i j) :
    Ends I (fun fuel => stmt.eval (Scene.mk names call depth fuel)) (Always (Flow.Stays site)) := by
  obtain ⟨line, column, node⟩ := stmt
  simp only [Stmt.eval]
  simp only [Stmt.tame] at ht
  exact node_ends node ht hat

theorem node_ends (node : StmtNode) (ht : node.tame = true) {site : Site} {i j : Nat}
    (hat : StmtNode.At p site node i j) :
    Ends I (fun fuel => node.eval (Scene.mk names call depth fuel)) (Always (Flow.Stays site)) := by
  cases node with
  | branch arms otherwise =>
    cases otherwise with
    | none =>
      simp only [StmtNode.tame, Bool.and_eq_true] at ht
      simp only [StmtNode.At] at hat
      obtain ⟨k, finish, harms, -, -⟩ := hat
      simp only [StmtNode.eval]
      exact arms_end arms ht.1 harms (.pure trivial)
    | some body =>
      simp only [StmtNode.tame, Bool.and_eq_true] at ht
      simp only [StmtNode.At] at hat
      obtain ⟨k, finish, harms, hbody, -⟩ := hat
      simp only [StmtNode.eval]
      exact arms_end arms ht.1 harms (block_ends body ht.2 hbody)
  | forList name source body =>
    simp only [StmtNode.tame, Bool.and_eq_true] at ht
    simp only [StmtNode.At] at hat
    obtain ⟨k, m, top, finish, hsource, -, -, hbody, -⟩ := hat
    simp only [StmtNode.eval]
    refine (Expr.ends hask source ht.1 hsource).andThen fun v _ => ?_
    cases v with
    | list items => exact forEach_ends (block_ends body ht.2 hbody) name _
    | _ => exact .raise _
  | forRange name first last body =>
    simp only [StmtNode.tame, Bool.and_eq_true] at ht
    simp only [StmtNode.At] at hat
    obtain ⟨h, k, m, top, finish, hfirst, hlast, -, hbody, -⟩ := hat
    simp only [StmtNode.eval]
    refine (Expr.ends hask first ht.1.1 hfirst).andThen fun a _ =>
      (Expr.ends hask last ht.1.2 hlast).andThen fun b _ => ?_
    cases a with
    | int a =>
      cases b with
      | int b => exact forCount_ends (block_ends body ht.2 hbody) name _ a
      | _ => exact .raise _
    | _ => exact .raise _
  | «while» condition body => cases ht
  | «try» body handlers =>
    simp only [StmtNode.tame, Bool.and_eq_true] at ht
    simp only [StmtNode.At] at hat
    obtain ⟨k, m, labels, count, finish, hcatches, -, -, hbody, -, hhandlers, -⟩ := hat
    simp only [StmtNode.eval]
    exact (catches_end hask handlers ht.2 hcatches).andThen fun cs _ =>
      (block_ends body ht.1 hbody).rescue fun e => handlers_end e handlers ht.2 hhandlers cs
  | «break» =>
    simp only [StmtNode.At] at hat
    obtain ⟨loop, height, label, scopes, hloop, -⟩ := hat
    simp only [StmtNode.eval]
    refine .pure ?_
    rw [Flow.Stays, hloop]
    exact nofun
  | «continue» =>
    simp only [StmtNode.At] at hat
    obtain ⟨loop, height, label, scopes, hloop, -⟩ := hat
    simp only [StmtNode.eval]
    refine .pure ?_
    rw [Flow.Stays, hloop]
    exact nofun
  | «return» value =>
    cases value with
    | none =>
      simp only [StmtNode.eval]
      exact .pure trivial
    | some e =>
      simp only [StmtNode.tame] at ht
      simp only [StmtNode.At] at hat
      obtain ⟨k, he, -⟩ := hat
      simp only [StmtNode.eval]
      exact (Expr.ends hask e ht he).andThen fun v _ => .pure trivial
  | expr e =>
    simp only [StmtNode.tame] at ht
    simp only [StmtNode.At] at hat
    obtain ⟨k, he, -⟩ := hat
    simp only [StmtNode.eval]
    exact (Expr.ends hask e ht he).andThen fun v _ => .pure trivial

theorem block_ends (stmts : List Stmt) (ht : tameBlock stmts = true) {site : Site} {i j : Nat}
    (hat : BlockAt p site stmts i j) :
    Ends I (fun fuel => evalBlock (Scene.mk names call depth fuel) stmts)
      (Always (Flow.Stays site)) := by
  match stmts with
  | [] =>
    simp only [evalBlock]
    exact .pure trivial
  | stmt :: rest =>
    simp only [tameBlock, Bool.and_eq_true] at ht
    simp only [BlockAt] at hat
    obtain ⟨k, hstmt, hrest⟩ := hat
    simp only [evalBlock]
    refine (stmt_ends stmt ht.1 hstmt).andThen fun flow hflow => ?_
    cases flow with
    | next => exact block_ends rest ht.2 hrest
    | _ => exact .pure hflow

theorem arms_end (arms : List (Expr × List Stmt)) (ht : tameArms arms = true) {site : Site}
    {finish : Label} {i k : Nat} (hat : ArmsAt p site finish arms i k) {otherwise : Nat → Eval Flow}
    (hother : Ends I otherwise (Always (Flow.Stays site))) :
    Ends I (fun fuel => evalArms (Scene.mk names call depth fuel) (otherwise fuel) arms)
      (Always (Flow.Stays site)) := by
  match arms with
  | [] =>
    simp only [evalArms]
    exact hother
  | (condition, body) :: rest =>
    simp only [tameArms, Bool.and_eq_true] at ht
    simp only [ArmsAt] at hat
    obtain ⟨l, m, next, hcondition, -, hbody, -, -, hrest⟩ := hat
    simp only [evalArms]
    exact (Expr.ends hask condition ht.1.1 hcondition).andThen fun v _ =>
      .choose (block_ends body ht.1.2 hbody) (arms_end rest ht.2 hrest hother)

theorem handlers_end (e : ScriptError) (handlers : List Handler) (ht : tameHandlers handlers = true)
    {site : Site} {finish : Label} {labels : List Label} {i j : Nat}
    (hat : HandlersAt p site finish handlers labels i j) (catches : List Catch) :
    Ends I (fun fuel => evalHandlers (Scene.mk names call depth fuel) e catches handlers)
      (Always (Flow.Stays site)) := by
  match handlers, catches with
  | [], catches =>
    simp only [evalHandlers]
    exact .raise e
  | .mk name codes body :: rest, [] =>
    simp only [evalHandlers]
    exact .raise e
  | .mk name codes body :: rest, c :: catches =>
    simp only [tameHandlers, Bool.and_eq_true] at ht
    rw [HandlersAt] at hat
    obtain ⟨label, more, k, m, -, -, -, hbody, hrest⟩ := hat
    have hreceived : Ends I (fun fuel => do
        match name with
        | some name => Eval.set name (.err e)
        | none => pure ()
        evalBlock (Scene.mk names call depth fuel) body) (Always (Flow.Stays site)) := by
      cases name with
      | none => exact block_ends body ht.1.2 hbody
      | some name => exact (Ends.set name (.err e)).andThen fun _ _ => block_ends body ht.1.2 hbody
    have hlater : Ends I (fun fuel => evalHandlers (Scene.mk names call depth fuel) e catches rest)
        (Always (Flow.Stays site)) := by
      by_cases hlast : rest.isEmpty
      · obtain rfl := List.isEmpty_iff.mp hlast
        simp only [evalHandlers]
        exact .raise e
      · rw [if_neg hlast] at hrest
        exact handlers_end e rest ht.2 hrest.2 catches
    simp only [evalHandlers]
    exact .choose hreceived hlater

end

end

end Lineage.Script
