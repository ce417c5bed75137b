/-
  Lineage.Proofs.Script.CountedLoops

  A loop over a list or over numbers visits exactly what it is to go over.

  What a loop has got to lies on the stack, as two values that its head changes in each round.
  `Frame.GoesOver` is about all the rounds that a loop may go, whatever its body does to the
  variables: the head binds the values in order, each once, and then leaves without the two
  values of the loop.  It is shown from what the head does after any number of rounds
  (`Frame.Visits`).

  That a body comes back to the head with the stack as the head left it is what its code does
  when its evaluation falls through or ends by `continue` (`rounds_of_passes`).
-/
import Mathlib.Algebra.Group.Int.Defs
import Mathlib.Algebra.Group.Nat.Defs
import Lineage.Proofs.Script.StmtSimulation

namespace Lineage

open Script (Name)

/-! ## Rounds -/

namespace Frame

/-- What the head of a loop makes of a frame when it binds a value. -/
def bound (f : Frame) (name : Name) (v : Value) (stack : List Value) : Frame :=
  { f with pc := f.pc + 1, env := f.env.setIfInBounds name.slot.toNat (some v), stack }

/-- What the head of a loop makes of a frame when the loop is over. -/
def left (f : Frame) (j : Nat) (stack : List Value) : Frame :=
  { f with pc := j, stack }

/-- Back at the head of a loop, with the values on the stack that the head left there.  Variables may
have been set. -/
structure Back (f : Frame) (stack : List Value) (g : Frame) : Prop where
  program : g.program = f.program
  pc : g.pc = f.pc
  size : g.env.size = f.env.size
  stack : g.stack = stack

/-- A loop has gone round, from one time at its head to another, and has bound these values. -/
inductive Rounds (name : Name) : Frame → List Value → Frame → Prop where
  | here (f : Frame) : Rounds name f [] f
  | round {f g e : Frame} {v : Value} {stack vs : List Value} :
      f.step = .next (f.bound name v stack) → stack.length = f.stack.length → Back f stack g →
        Rounds name g vs e → Rounds name f (v :: vs) e

/-- A loop goes over values: its head binds them in order, each once, and then leaves, with no
variable changed.  On the stack are what it keeps for itself, by how many rounds it has gone, and
below that what was there before. -/
def GoesOver (name : Name) (j : Nat) (values : List Value) (kept : Nat → List Value)
    (stack : List Value) (f : Frame) : Prop :=
  ∀ vs e, Rounds name f vs e → vs <+: values ∧ e.stack = kept vs.length ++ stack ∧
    e.step = .next (match values[vs.length]? with
      | some v => e.bound name v (kept (vs.length + 1) ++ stack)
      | none => e.left j stack)

/-- The head of a loop: the instruction there, where the loop ends, and a variable to bind. -/
structure AtHead (f : Frame) (op : Op) (name : Name) (finish : Label) (j : Nat) : Prop where
  op : f.program.ops[f.pc]? = some op
  finish : f.program.target finish = some j
  slot : name.slot.toNat < f.env.size

variable {f g e : Frame} {op : Op} {name : Name} {finish : Label} {j n : Nat}
  {stack values vs : List Value} {kept : Nat → List Value}

theorem AtHead.back {stack' : List Value} (hf : f.AtHead op name finish j) (hg : Back f stack' g) :
    g.AtHead op name finish j where
  op := by rw [hg.program, hg.pc]; exact hf.op
  finish := by rw [hg.program]; exact hf.finish
  slot := by rw [hg.size]; exact hf.slot

theorem AtHead.step_eq (hf : f.AtHead op name finish j) :
    f.step = { f with pc := f.pc + 1 }.perform op := by
  simp only [step, hf.op]

theorem AtHead.bind_eq (hf : f.AtHead op name finish j) (stack : List Value) (v : Value) :
    { f with pc := f.pc + 1, stack := stack }.bind name v = some (f.bound name v stack) :=
  bind_slot hf.slot

/-- A time at the head of a loop that has gone round `n` times. -/
def Visits (op : Op) (name : Name) (finish : Label) (j : Nat) (values : List Value)
    (kept : Nat → List Value) (stack : List Value) (n : Nat) : Prop :=
  ∀ f : Frame, f.AtHead op name finish j → f.stack = kept n ++ stack →
    f.step = .next (match values[n]? with
      | some v => f.bound name v (kept (n + 1) ++ stack)
      | none => f.left j stack)

/-- From some round on, the loop goes over what is left.  Induction on the rounds. -/
theorem Rounds.prefix_drop (h : Rounds name f vs e)
    (hvisits : ∀ n ≤ values.length, Visits op name finish j values kept stack n)
    (hkept : ∀ n, (kept n).length = 2) (hf : f.AtHead op name finish j)
    (hstack : f.stack = kept n ++ stack) (hn : n ≤ values.length) :
    vs <+: values.drop n ∧ e.stack = kept (n + vs.length) ++ stack ∧ e.AtHead op name finish j := by
  induction h generalizing n with
  | here f => exact ⟨List.nil_prefix, hstack, hf⟩
  | @round f g e v stack' vs hstep hlength hback _ ih =>
    have hvisit := hvisits n hn f hf hstack
    rw [hstep] at hvisit
    rcases Nat.lt_or_eq_of_le hn with hlt | rfl
    · rw [List.getElem?_eq_getElem hlt] at hvisit
      have hbound := Reply.next.inj hvisit
      have hstack' : stack' = kept (n + 1) ++ stack := congrArg Frame.stack hbound
      -- The variable had a place, so what was put there can be told.
      have hv : v = values[n] := by
        have henv := congrArg (fun f : Frame => f.env[name.slot.toNat]?) hbound
        simpa only [bound, Array.getElem?_setIfInBounds_self_of_lt hf.slot, Option.some.injEq]
          using henv
      obtain ⟨hfront, hend, hhead⟩ := ih (hf.back hback) (hback.stack.trans hstack') hlt
      refine ⟨?_, ?_, hhead⟩
      · rw [List.drop_eq_getElem_cons hlt, hv]
        exact List.cons_prefix_cons.mpr ⟨rfl, hfront⟩
      · rw [hend, List.length_cons, Nat.add_right_comm, Nat.add_assoc]
    · -- The head has left, with less on the stack than a round keeps.
      rw [List.getElem?_eq_none (Nat.le_refl _)] at hvisit
      have hstack' : stack' = stack := congrArg Frame.stack (Reply.next.inj hvisit)
      rw [hstack, List.length_append, hkept, hstack'] at hlength
      omega

theorem goesOver_of_visits (hvisits : ∀ n ≤ values.length, Visits op name finish j values kept stack n)
    (hkept : ∀ n, (kept n).length = 2) (hf : f.AtHead op name finish j)
    (hstack : f.stack = kept 0 ++ stack) : GoesOver name j values kept stack f := by
  intro vs e hrounds
  obtain ⟨hfront, hend, hhead⟩ := hrounds.prefix_drop hvisits hkept hf hstack (Nat.zero_le _)
  rw [List.drop_zero] at hfront
  rw [Nat.zero_add] at hend
  exact ⟨hfront, hend, hvisits _ hfront.length_le e hhead hend⟩

/-! ## What the heads do -/

end Frame

open Script

/-- The numbers from one to another, both included. -/
def numbers (a b : Int64) : List Value :=
  (List.range (countFromTo a b)).map fun (n : Nat) => .int (Int64.ofInt (a.toInt + n))

/-- What a loop over numbers keeps after some rounds: the upper bound and the next number.  If that
is past the largest one, the bound is below it instead. -/
def keptNumbers (a b : Int64) (n : Nat) : List Value :=
  if a.toInt + n < 2 ^ 63 then [.int b, .int (Int64.ofInt (a.toInt + n))]
  else [.int (b - 1), .int Int64.maxValue]

/-- What a loop over a list keeps after some rounds: how many there were, and the list. -/
def keptItems (items : List Value) (n : Nat) : List Value :=
  [.int (Int64.ofNat n), .list items]

section

variable {a b : Int64} {items : List Value} {n : Nat}

theorem length_numbers : (numbers a b).length = countFromTo a b := by
  rw [numbers, List.length_map, List.length_range]

theorem length_keptNumbers : (keptNumbers a b n).length = 2 := by
  rw [keptNumbers]
  split <;> rfl

theorem keptNumbers_zero : keptNumbers a b 0 = [.int b, .int a] := by
  have ha := a.toInt_lt
  rw [keptNumbers, if_pos (by omega), Int.natCast_zero, Int.add_zero, Int64.ofInt_toInt]

/-- The numbers are those that they should be. -/
theorem getElem?_numbers (hn : n < countFromTo a b) :
    ∃ v : Int64, v.toInt = a.toInt + n ∧ (numbers a b)[n]? = some (.int v) := by
  have ha := a.le_toInt
  have hb := b.toInt_lt
  rw [countFromTo] at hn
  refine ⟨Int64.ofInt (a.toInt + n), Int64.toInt_ofInt_of_le (by omega) (by omega), ?_⟩
  rw [numbers, List.getElem?_map, List.getElem?_range (by rw [countFromTo]; exact hn)]
  rfl

/-- No number that a loop keeps has overflowed. -/
theorem keptNumbers_exact (hn : n ≤ countFromTo a b) : ∃ last first : Int64,
    keptNumbers a b n = [.int last, .int first] ∧
      ((first.toInt = a.toInt + n ∧ last = b) ∨
        (n = countFromTo a b ∧ first = Int64.maxValue ∧ b = Int64.maxValue ∧
          last.toInt = b.toInt - 1)) := by
  have ha := a.le_toInt
  have ha' := a.toInt_lt
  have hb := b.toInt_lt
  have hmax : Int64.maxValue.toInt = 2 ^ 63 - 1 := rfl
  rw [countFromTo] at hn ⊢
  rw [keptNumbers]
  split
  · exact ⟨_, _, rfl, .inl ⟨Int64.toInt_ofInt_of_le (by omega) (by omega), rfl⟩⟩
  · have hlast : b = Int64.maxValue := Int64.toInt_inj.mp (by omega)
    exact ⟨_, _, rfl, .inr ⟨by omega, rfl, hlast, toInt_pred hlast⟩⟩

end

namespace Frame

variable {f : Frame} {name : Name} {finish : Label} {j n : Nat} {stack : List Value}

theorem nextBounds_numbers {a b first : Int64} (hfirst : first.toInt = a.toInt + n) :
    nextBounds first b = keptNumbers a b (n + 1) := by
  have hmax : Int64.maxValue.toInt = 2 ^ 63 - 1 := rfl
  rw [nextBounds, keptNumbers]
  by_cases hlast : first = Int64.maxValue
  · have hpast : ¬ a.toInt + (n + 1 : Nat) < 2 ^ 63 := by
      rw [hlast, hmax] at hfirst
      omega
    rw [if_pos hlast, if_neg hpast, hlast]
  · have hnext := toInt_succ hlast
    have hlt := (first + 1).toInt_lt
    rw [if_neg hlast, if_pos (by omega), show a.toInt + (n + 1 : Nat) = (first + 1).toInt by omega,
      Int64.ofInt_toInt]

theorem visits_numbers {a b : Int64} (hn : n ≤ countFromTo a b) :
    Visits (.forRange name finish) name finish j (numbers a b) (keptNumbers a b) stack n := by
  intro f hf hstack
  obtain ⟨last, first, hkept, hexact⟩ := keptNumbers_exact hn
  have hb := b.toInt_lt
  have hstep : f.step = { f with pc := f.pc + 1 }.stepForRange name finish := hf.step_eq
  rw [hkept] at hstack
  rw [hstep]
  simp only [stepForRange, hstack, List.cons_append, List.nil_append]
  rcases Nat.lt_or_eq_of_le hn with hlt | hend
  · obtain ⟨hfirst, rfl⟩ : first.toInt = a.toInt + n ∧ last = b :=
      hexact.resolve_right fun h => absurd h.1 (Nat.ne_of_lt hlt)
    obtain ⟨v, hv, hnumber⟩ := getElem?_numbers hlt
    obtain rfl : v = first := Int64.toInt_inj.mp (hv.trans hfirst.symm)
    have hle : ¬ last < v := by
      rw [Int64.lt_iff_toInt_lt]
      rw [countFromTo] at hlt
      omega
    rw [if_neg hle, hnumber, ← nextBounds_numbers hv]
    dsimp only
    rw [hf.bind_eq]
    rfl
  · have hlt : last < first := by
      rw [Int64.lt_iff_toInt_lt]
      rcases hexact with ⟨hfirst, rfl⟩ | ⟨-, rfl, rfl, hlast⟩
      · rw [countFromTo] at hend
        omega
      · omega
    have hnone : (numbers a b)[n]? = none :=
      List.getElem?_eq_none (Nat.le_of_eq (length_numbers.trans hend.symm))
    rw [if_pos hlt, hnone]
    exact jump_target hf.finish

theorem visits_items {items : List Value} (hitems : items.length < 2 ^ 63) (hn : n ≤ items.length) :
    Visits (.forList name finish) name finish j items (keptItems items) stack n := by
  intro f hf hstack
  have hstep : f.step = { f with pc := f.pc + 1 }.stepForList name finish := hf.step_eq
  obtain ⟨hneg, hnat⟩ := counter_lt (Nat.lt_of_le_of_lt hn hitems)
  rw [keptItems] at hstack
  rw [hstep]
  simp only [stepForList, hstack, List.cons_append, List.nil_append, if_neg hneg, hnat]
  cases items[n]? with
  | some item =>
    dsimp only
    rw [hf.bind_eq, keptItems, show Int64.ofNat (n + 1) = Int64.ofNat n + 1 from Int64.ofNat_add n 1]
    rfl
  | none => exact jump_target hf.finish

/-- Nothing is bound, and an error of the wrong type is raised. -/
def RaisesType (f : Frame) : Prop :=
  ∃ e g, f.step = .raise e g ∧ e.code = .typeMismatch ∧ g.env = f.env

theorem raises_numbers {f : Frame} (hf : f.AtHead (.forRange name finish) name finish j)
    {first last : Value} (hstack : f.stack = last :: first :: stack)
    (h : first.int? = none ∨ last.int? = none) : f.RaisesType := by
  have hstep : f.step = { f with pc := f.pc + 1 }.stepForRange name finish := hf.step_eq
  refine ⟨.withMessage .typeMismatch "range bounds must be integers",
    { f with pc := f.pc + 1, stack := stack }, ?_, rfl, rfl⟩
  rw [hstep]
  simp only [stepForRange, hstack]
  cases first <;> cases last <;> first | rfl | (rcases h with h | h <;> cases h)

theorem raises_items {f : Frame} (hf : f.AtHead (.forList name finish) name finish j)
    {source : Value} {counter : Int64} (hstack : f.stack = .int counter :: source :: stack)
    (h : source.list? = none) : f.RaisesType := by
  have hstep : f.step = { f with pc := f.pc + 1 }.stepForList name finish := hf.step_eq
  refine ⟨.withMessage .typeMismatch "for loop over a non-list",
    { f with pc := f.pc + 1, stack := stack }, ?_, rfl, rfl⟩
  rw [hstep]
  simp only [stepForList, hstack]
  cases source <;> first | rfl | cases h

end Frame

/-! ## Bodies -/

namespace Script

open Lineage.Frame

/-- A body is evaluated once for each value, with the variable of its loop set to it, and each time
falls through or ends by `continue`. -/
inductive Passes (name : Name) (body : Eval Flow) :
    List Value → Env → World → Env → World → Prop where
  | done (env : Env) (w : World) : Passes name body [] env w env w
  | pass {v : Value} {vs : List Value} {flow : Flow} {env env₁ env₂ : Env} {w w₁ w₂ : World} :
      body (env.setIfInBounds name.slot.toNat (some v)) w = some (.ok flow, env₁, w₁) →
        flow = .next ∨ flow = .continue → Passes name body vs env₁ w₁ env₂ w₂ →
        Passes name body (v :: vs) env w env₂ w₂

/-- The code of a loop, from its head to where it ends. -/
structure LoopCode (p : Program) (site : Site) (op : Op) (name : Name) (finish : Label)
    (body : List Stmt) (head j : Nat) : Prop where
  op : p.ops[head]? = some op
  finish : p.target finish = some j
  slotted : Slotted p name
  body : ∃ m top, BlockAt p (site.inLoop 2 head j) body (head + 1) m ∧
    p.ops[m]? = some (.jump top) ∧ p.target top = some head

/-- A loop goes over values whatever its body does to the variables, and as long as the body falls
through or ends by `continue` the run goes on, round after round, as the evaluation of the body
says. -/
structure GoesRound (s : Scene) (p : Program) (site : Site) (name : Name) (body : List Stmt)
    (head j : Nat) (values : List Value) (kept : Nat → List Value) : Prop where
  covers : ∀ stack scopes catches k env, p.names.width ≤ env.size →
    (frame p head (kept 0 ++ stack) scopes catches k env).GoesOver name j values kept stack
  runs : ∀ stack scopes catches k env env' w w' vs, p.names.width ≤ env.size →
    Suits site stack scopes → vs <+: values → Passes name (evalBlock s body) vs env w env' w' →
      ∃ e, Rounds name (frame p head (kept 0 ++ stack) scopes catches k env) vs e ∧
        Leads s (.running (frame p head (kept 0 ++ stack) scopes catches k env) w) (.running e w') ∧
        e.env = env'

variable {C : Value → Prop} {s : Scene} {p : Program} {site : Site} {op : Op} {name : Name}
  {finish : Label} {body : List Stmt} {head j : Nat} {values stack : List Value}
  {kept : Nat → List Value} {scopes : List Lineage.Scope} {catches : List (Catch × Label)}
  {k : Value} {env env' : Env} {w w' : World}

theorem LoopCode.atHead (hloop : LoopCode p site op name finish body head j)
    (henv : p.names.width ≤ env.size) :
    (frame p head stack scopes catches k env).AtHead op name finish j :=
  ⟨hloop.op, hloop.finish, Nat.lt_of_lt_of_le hloop.slotted henv⟩

/-- Where a body comes to that falls through or ends by `continue`. -/
theorem LoopCode.comes_back (hloop : LoopCode p site op name finish body head j)
    (hs : s.names = p.names) (hbody : Stmt.AllIn C (Slotted p) body) (hsite : Suits site stack scopes)
    (hvalues : values.length = 2) (henv : p.names.width ≤ env.size) {flow : Flow}
    (heval : evalBlock s body env w = some (.ok flow, env', w'))
    (hflow : flow = .next ∨ flow = .continue) :
    env'.size = env.size ∧ ∃ catches' k', Leads s
      (.running (frame p (head + 1) (values ++ stack) scopes catches k env) w)
      (.running (frame p head (values ++ stack) scopes catches' k' env') w') := by
  obtain ⟨m, top, hat, hjump, htop⟩ := hloop.body
  rw [← hvalues] at hat
  have hrun := block_sim hs body hbody hat (hsite.inLoop values head j) env w
    (.running (frame p (head + 1) (values ++ stack) scopes catches k env) w) henv ⟨catches, k, rfl⟩
  rw [heval] at hrun
  obtain ⟨hsize, c, hc, hleaves⟩ := hrun
  obtain ⟨c', hc', catches', k', rfl⟩ :=
    back_gets values hsite hjump htop hflow env' w' c (hsize ▸ henv) hleaves
  exact ⟨hsize, catches', k', hc.trans hc'⟩

/-- The rounds of a run, one for each time the body is evaluated.  Induction on those. -/
theorem LoopCode.rounds_of_passes (hloop : LoopCode p site op name finish body head j)
    (hs : s.names = p.names) (hbody : Stmt.AllIn C (Slotted p) body) (hsite : Suits site stack scopes)
    (hvisits : ∀ n ≤ values.length, Visits op name finish j values kept stack n)
    (hkept : ∀ n, (kept n).length = 2) {vs : List Value}
    (hpass : Passes name (evalBlock s body) vs env w env' w') {n : Nat}
    (hvs : vs <+: values.drop n) (henv : p.names.width ≤ env.size) :
    ∃ e, Rounds name (frame p head (kept n ++ stack) scopes catches k env) vs e ∧
      Leads s (.running (frame p head (kept n ++ stack) scopes catches k env) w) (.running e w') ∧
      e.env = env' := by
  induction hpass generalizing n catches k with
  | done env w => exact ⟨_, .here _, .refl s _, rfl⟩
  | @pass v vs flow env env₁ env₂ w w₁ w₂ heval hflow _ ih =>
    have hlt : n < values.length := by
      have hlength := hvs.length_le
      rw [List.length_cons, List.length_drop] at hlength
      omega
    rw [List.drop_eq_getElem_cons hlt] at hvs
    obtain ⟨rfl, hvs'⟩ := List.cons_prefix_cons.mp hvs
    -- The head binds the value, the body is run, and control is back at the head.
    have hat : (frame p head (kept n ++ stack) scopes catches k env).AtHead op name finish j :=
      hloop.atHead henv
    have hstep := hvisits n (Nat.le_of_lt hlt) _ hat rfl
    rw [List.getElem?_eq_getElem hlt] at hstep
    have henv' : p.names.width ≤ (env.setIfInBounds name.slot.toNat (some values[n])).size := by
      rw [Array.size_setIfInBounds]
      exact henv
    obtain ⟨hsize, catches', k', hleads⟩ := hloop.comes_back hs hbody hsite (hkept (n + 1)) henv' heval hflow
    rw [Array.size_setIfInBounds] at hsize
    obtain ⟨e, hrounds, hrest, hend⟩ := ih hvs' (hsize ▸ henv)
    have hback : Back (frame p head (kept n ++ stack) scopes catches k env) (kept (n + 1) ++ stack)
        (frame p head (kept (n + 1) ++ stack) scopes catches' k' env₁) := ⟨rfl, rfl, hsize, rfl⟩
    have hlength : (kept (n + 1) ++ stack).length = (kept n ++ stack).length := by
      rw [List.length_append, List.length_append, hkept, hkept]
    exact ⟨e, .round hstep hlength hback hrounds, (Steps.next hstep).leads.trans (hleads.trans hrest), hend⟩

theorem LoopCode.goesRound (hloop : LoopCode p site op name finish body head j)
    (hs : s.names = p.names) (hbody : Stmt.AllIn C (Slotted p) body)
    (hvisits : ∀ stack, ∀ n ≤ values.length, Visits op name finish j values kept stack n)
    (hkept : ∀ n, (kept n).length = 2) : GoesRound s p site name body head j values kept where
  covers stack _ _ _ _ henv := goesOver_of_visits (hvisits stack) hkept (hloop.atHead henv) rfl
  runs _ _ _ _ _ _ _ _ _ henv hsite hvs hpass :=
    hloop.rounds_of_passes hs hbody hsite (hvisits _) hkept hpass hvs henv

/-! ## Loops in programs -/

/-- In the code of a script a loop over numbers goes over the numbers between its bounds, and a loop
over a list over the elements that the list had at the start; both leave without the two values
that they keep.  What is no integer or no list is refused, with nothing bound.  None of the numbers
that a loop works with overflows. -/
theorem counted_loops (hs : s.names = p.names) :
    (∀ first last i, (StmtNode.forRange name first last body).All C (Slotted p) →
      StmtNode.At p site (.forRange name first last body) i j →
      ∃ m head, Expr.At p first i m ∧ Expr.At p last m head ∧
        (∀ a b, keptNumbers a b 0 = [.int b, .int a] ∧
          GoesRound s p site name body head j (numbers a b) (keptNumbers a b)) ∧
        ∀ u v : Value, u.int? = none ∨ v.int? = none → ∀ stack scopes catches k env,
          p.names.width ≤ env.size → (frame p head (v :: u :: stack) scopes catches k env).RaisesType) ∧
    (∀ source i, (StmtNode.forList name source body).All C (Slotted p) →
      StmtNode.At p site (.forList name source body) i j →
      ∃ m, Expr.At p source i m ∧ p.ops[m]? = some (.pushInt 0) ∧
        (∀ items : List Value, items.length < 2 ^ 63 → keptItems items 0 = [.int 0, .list items] ∧
          GoesRound s p site name body (m + 1) j items (keptItems items)) ∧
        ∀ v : Value, v.list? = none → ∀ stack scopes catches k env, p.names.width ≤ env.size →
          (frame p (m + 1) (.int 0 :: v :: stack) scopes catches k env).RaisesType) ∧
    (∀ a b, (numbers a b).length = countFromTo a b ∧
      (∀ n < countFromTo a b, ∃ v : Int64, v.toInt = a.toInt + n ∧ (numbers a b)[n]? = some (.int v)) ∧
      ∀ n ≤ countFromTo a b, ∃ last first : Int64, keptNumbers a b n = [.int last, .int first] ∧
        ((first.toInt = a.toInt + n ∧ last = b) ∨
          (n = countFromTo a b ∧ first = Int64.maxValue ∧ b = Int64.maxValue ∧
            last.toInt = b.toInt - 1))) ∧
    ∀ n < 2 ^ 63, (Int64.ofNat n).toInt = n := by
  refine ⟨fun first last i hall hat => ?_, fun source i hall hat => ?_,
    fun a b => ⟨length_numbers, fun n hn => getElem?_numbers hn, fun n hn => keptNumbers_exact hn⟩,
    fun n hn => Int64.toInt_ofNat_of_lt hn⟩
  · obtain ⟨hname, -, -, hbody⟩ := hall
    simp only [StmtNode.At] at hat
    obtain ⟨m, head, after, top, finish, hfirst, hlast, hop, hblock, hjump, htop, hfinish, -⟩ := hat
    have hloop : LoopCode p site (.forRange name finish) name finish body head j :=
      ⟨hop, hfinish, hname, after, top, hblock, hjump, htop⟩
    refine ⟨m, head, hfirst, hlast, fun a b => ⟨keptNumbers_zero, ?_⟩, fun u v h stack _ _ _ _ henv => ?_⟩
    · refine hloop.goesRound hs hbody (fun stack n hn => ?_) fun n => length_keptNumbers
      rw [length_numbers] at hn
      exact visits_numbers hn
    · exact raises_numbers (hloop.atHead henv) rfl h
  · obtain ⟨hname, -, hbody⟩ := hall
    simp only [StmtNode.At] at hat
    obtain ⟨m, after, top, finish, hsource, hpush, hop, hblock, hjump, htop, hfinish, -⟩ := hat
    have hloop : LoopCode p site (.forList name finish) name finish body (m + 1) j :=
      ⟨hop, hfinish, hname, after, top, hblock, hjump, htop⟩
    refine ⟨m, hsource, hpush, fun items hitems => ⟨rfl, ?_⟩, fun v h stack _ _ _ _ henv => ?_⟩
    · exact hloop.goesRound hs hbody (fun stack n hn => visits_items hitems hn) fun n => rfl
    · exact raises_items (hloop.atHead henv) rfl h

/-- The body `x = 0;`. -/
def resetting : List Stmt := [.mk 2 1 (.expr (.assign (.var ⟨0⟩) (.value (.int 0))))]

/-- A loop over the two largest numbers, which sets its variable to something else in each round. -/
def largestLoop : SyntaxTree where
  names := ⟨#["x"]⟩
  statements := [.mk 1 1 (.forRange ⟨0⟩ (.value (.int (Int64.maxValue - 1)))
    (.value (.int Int64.maxValue)) resetting)]

/-- What it compiles to. -/
def largestCode : Program where
  literals := #[]
  labels := #[⟨some ⟨0⟩, 2⟩, ⟨some ⟨0⟩, 7⟩]
  names := ⟨#["x"]⟩
  scatterTables := #[]
  ops := #[.pushInt (Int64.maxValue - 1), .pushInt Int64.maxValue, .forRange ⟨0⟩ ⟨1⟩, .pushInt 0,
    .store ⟨0⟩, .pop, .jump ⟨0⟩, .finish]
  spans := [(0, 1), (3, 2)]

/-- It goes two rounds whatever becomes of the variable, and then leaves. -/
theorem counted_loops_largest : largestLoop.compile = .ok largestCode ∧
    ∃ e, Rounds ⟨0⟩ (frame largestCode 2 [.int Int64.maxValue, .int (Int64.maxValue - 1)] [] [] .null
        #[none]) [.int (Int64.maxValue - 1), .int Int64.maxValue] e ∧
      e.env = #[some (.int 0)] ∧ e.step = .next (e.left 7 []) := by
  refine ⟨rfl, ?_⟩
  let call : Activation := .start largestCode .nothing .nothing "eval" (.direct .nothing) []
  let s : Scene := ⟨largestCode.names, call, 0, 0⟩
  let w : World := .initial (.memory {}) {}
  have hslot : Slotted largestCode ⟨0⟩ := by decide
  have hall : (StmtNode.forRange ⟨0⟩ (.value (.int (Int64.maxValue - 1)))
      (.value (.int Int64.maxValue)) resetting).All (fun _ => True) (Slotted largestCode) :=
    ⟨hslot, trivial, trivial, ⟨hslot, trivial⟩, trivial⟩
  have hbody (site : Site) : BlockAt largestCode site resetting 3 6 :=
    ⟨6, ⟨5, ⟨3, 4, rfl, ⟨_, rfl, .int _, rfl⟩, rfl, rfl⟩, rfl, rfl⟩, rfl⟩
  have hat : StmtNode.At largestCode ⟨0, 0, none⟩ (.forRange ⟨0⟩ (.value (.int (Int64.maxValue - 1)))
      (.value (.int Int64.maxValue)) resetting) 0 7 :=
    ⟨1, 2, 6, ⟨0⟩, ⟨1⟩, ⟨_, rfl, .int _, rfl⟩, ⟨_, rfl, .int _, rfl⟩, rfl, hbody _, rfl, rfl, rfl, rfl⟩
  obtain ⟨m, head, hfirst, hlast, hgoes, -⟩ := (counted_loops (s := s) rfl).1 _ _ 0 hall hat
  obtain ⟨-, -, -, rfl⟩ := hfirst
  obtain ⟨-, -, -, rfl⟩ := hlast
  obtain ⟨hkept, hround⟩ := hgoes (Int64.maxValue - 1) Int64.maxValue
  have hvalues : numbers (Int64.maxValue - 1) Int64.maxValue =
      [.int (Int64.maxValue - 1), .int Int64.maxValue] := rfl
  have hpass : Passes ⟨0⟩ (evalBlock s resetting) [.int (Int64.maxValue - 1), .int Int64.maxValue]
      #[none] w #[some (.int 0)] w :=
    .pass rfl (.inl rfl) (.pass rfl (.inl rfl) (.done _ _))
  obtain ⟨e, hrounds, -, henv⟩ := hround.runs [] [] [] .null #[none] _ w w _ (by decide)
    ⟨rfl, rfl, fun _ h => nomatch h⟩ (hvalues ▸ List.prefix_refl _) hpass
  obtain ⟨-, -, hend⟩ := hround.covers [] [] [] .null #[none] (by decide) _ _ hrounds
  rw [hkept] at hrounds
  exact ⟨e, hrounds, henv, hend⟩

end Script

end Lineage
