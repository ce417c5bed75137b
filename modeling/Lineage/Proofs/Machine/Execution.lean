/-
  Lineage.Proofs.Machine.Execution

  A call as one recursive function.

  `Machine.run` keeps the calls that wait on a stack.  `Activation.execute` runs one
  call to its end and runs the calls that it makes inside itself, so that nothing is
  known of the callers but how many there are.  `run_iff_execute`: the two halt
  together, with the same result and in the same world.

  Traces are left out of what `execute` gives; an error never depends on them.
-/
import Lineage.Machine.Call

namespace Lineage

open World

/-- How a call ends, whatever its trace. -/
inductive Verdict where
  | returned (v : Value)
  | raised (e : ScriptError)
  | faulted

/-- The ending of a run without its trace. -/
def Outcome.verdict : Outcome → Verdict
  | .returned v => .returned v
  | .raised x => .raised x.error
  | .faulted => .faulted

/-- A computation that may need more fuel than it has. -/
abbrev Attempt := World → Option (Verdict × World)

/-- What an action of a script comes to. -/
def ScriptAction.attempt (action : ScriptAction Value) : Attempt := fun w =>
  match action.run w with
  | (.ok v, w) => some (.returned v, w)
  | (.error e, w) => some (.raised e, w)

namespace Activation

/-- A call at another place of its program. -/
def withFrame (a : Activation) (f : Frame) : Activation := { a with frame := f }

/-- A call with an answer on its stack. -/
def push (a : Activation) (v : Value) : Activation := a.withFrame (a.frame.push v)

/-- Hand an error to a handler of this call and go on there; without one it ends the call. -/
def recover (resume : Activation → Attempt) (e : ScriptError) (a : Activation) : Attempt := fun w =>
  match a.frame.handler? e.code a.frame.scopes with
  | none => some (.raised e, w)
  | some (l, f) =>
    match (f.push (.err e)).jump l with
    | .next f => resume (a.withFrame f) w
    | _ => some (.faulted, w)

/-- Go on after what was asked has come to an end. -/
def proceed (resume : Activation → Attempt) (a : Activation) : Verdict → Attempt
  | .returned v => resume (a.push v)
  | .raised e => recover resume e a
  | .faulted => fun w => some (.faulted, w)

/-- Carry out a request of a call with `depth` callers; `enter` runs a method that it calls. -/
def serve (enter : Activation → Attempt) (a : Activation) (depth : Nat) : Request → Attempt
  | .getProp object property => (Machine.getProp object property).attempt
  | .putProp object property v => (Machine.putProp object property v).attempt
  | .callBuiltin f args => (f.call args).attempt
  | .callMethod object name args => fun w =>
    match (Machine.enterMethod a depth object name args).run w with
    | (.ok callee, w) => enter callee w
    | (.error e, w) => some (.raised e, w)

/-- Run a call with `depth` callers to its end. -/
def execute : Nat → Nat → Activation → Attempt
  | 0, _, _ => fun _ => none
  | fuel + 1, depth, a => fun w =>
    match a.frame.step with
    | .next f => execute fuel depth (a.withFrame f) w
    | .raise e f => recover (execute fuel depth) e (a.withFrame f) w
    | .return v => some (.returned v, w)
    | .fault => some (.faulted, w)
    | .ask r f =>
      match serve (execute fuel (depth + 1)) (a.withFrame f) depth r w with
      | none => none
      | some (v, w) => proceed (execute fuel depth) (a.withFrame f) v w

/-! ## More fuel -/

/-- Whatever the first computation comes to, the second comes to as well. -/
def Extends (x y : Activation → Attempt) : Prop :=
  ∀ a w r, x a w = some r → y a w = some r

theorem recover_mono {x y : Activation → Attempt} (h : Extends x y) {e : ScriptError}
    {a : Activation} {w : World} {r : Verdict × World} (hr : recover x e a w = some r) :
    recover y e a w = some r := by
  unfold recover at hr ⊢
  split at hr
  · simpa using hr
  · split at hr
    · exact h _ _ _ hr
    · simpa using hr

theorem proceed_mono {x y : Activation → Attempt} (h : Extends x y) {v : Verdict}
    {a : Activation} {w : World} {r : Verdict × World} (hr : proceed x a v w = some r) :
    proceed y a v w = some r := by
  cases v with
  | returned v => exact h _ _ _ hr
  | raised e => exact recover_mono h hr
  | faulted => exact hr

theorem serve_mono {x y : Activation → Attempt} (h : Extends x y) {a : Activation} {depth : Nat}
    {q : Request} {w : World} {r : Verdict × World} (hr : serve x a depth q w = some r) :
    serve y a depth q w = some r := by
  cases q with
  | callMethod object name args =>
    simp only [serve] at hr ⊢
    split at hr
    · exact h _ _ _ hr
    · simpa using hr
  | _ => exact hr

theorem execute_succ_mono (fuel : Nat) :
    ∀ depth, Extends (execute fuel depth) (execute (fuel + 1) depth) := by
  induction fuel with
  | zero => intro depth a w r h; simp [execute] at h
  | succ fuel ih =>
    intro depth a w r h
    simp only [execute] at h ⊢
    cases hs : a.frame.step with
    | next f => simp only [hs] at h ⊢; exact ih depth _ _ _ h
    | raise e f => simp only [hs] at h ⊢; exact recover_mono (ih depth) h
    | «return» v => simpa [hs] using h
    | fault => simpa [hs] using h
    | ask q f =>
      simp only [hs] at h ⊢
      cases hv : serve (execute fuel (depth + 1)) (a.withFrame f) depth q w with
      | none => simp [hv] at h
      | some vw =>
        simp only [hv] at h
        have hv' := serve_mono (ih (depth + 1)) hv
        simp only [execute] at hv'
        rw [hv']
        exact proceed_mono (ih depth) h

theorem execute_mono {m n : Nat} (h : m ≤ n) (depth : Nat) :
    Extends (execute m depth) (execute n depth) := by
  induction h with
  | refl => intro a w r hr; exact hr
  | step _ ih => intro a w r hr; exact execute_succ_mono _ depth _ _ _ (ih _ _ _ hr)

end Activation

/-! ## The machine -/

namespace Machine

open Activation

/-- The machine when its running call has ended. -/
def leave : Outcome → List Activation → Progress
  | .returned v, [] => .halted (.returned v)
  | .returned v, caller :: callers => .running ⟨caller.push v, callers⟩
  | .raised x, [] => .halted (.raised x)
  | .raised x, caller :: callers => unwind x.error x.trace caller callers
  | .faulted, _ => .halted .faulted

/-- The rest of a run. -/
def finish (fuel : Nat) : Progress → StateM World (Option Outcome)
  | .running m => run fuel m
  | .halted o => return some o

theorem run_succ (fuel : Nat) (m : Machine) (w : World) :
    run (fuel + 1) m w = finish fuel (m.step w).1 (m.step w).2 := by
  rw [run]
  simp only [bind, StateT.bind]
  rcases m.step w with ⟨p, w'⟩
  cases p <;> rfl

theorem run_succ_mono {fuel : Nat} {m : Machine} {w w' : World} {o : Outcome}
    (h : run fuel m w = (some o, w')) : run (fuel + 1) m w = (some o, w') := by
  induction fuel generalizing m w with
  | zero => cases h
  | succ fuel ih =>
    rw [run_succ] at h ⊢
    cases hp : (m.step w).1 with
    | running m' => rw [hp] at h; exact ih h
    | halted o' => rw [hp] at h; exact h

theorem finish_mono {fuel more : Nat} {p : Progress} {w w' : World} {o : Outcome}
    (h : finish fuel p w = (some o, w')) (hm : fuel ≤ more) : finish more p w = (some o, w') := by
  induction hm with
  | refl => exact h
  | step _ ih =>
    cases p with
    | running m => exact run_succ_mono ih
    | halted o => exact ih

/-- An error goes to a handler of the running call, or else ends it. -/
theorem unwind_eq (e : ScriptError) (trace : List TraceFrame) (a : Activation)
    (callers : List Activation) :
    unwind e trace a callers =
      match a.frame.handler? e.code a.frame.scopes with
      | none => leave (.raised ⟨e, trace ++ [a.traceFrame]⟩) callers
      | some (l, f) =>
        match (f.push (.err e)).jump l with
        | .next f => .running ⟨a.withFrame f, callers⟩
        | _ => .halted .faulted := by
  cases callers <;> simp only [unwind, catchIn]
  all_goals
    cases h : a.frame.handler? e.code a.frame.scopes with
    | none => simp [leave]
    | some lf => cases hj : (lf.2.push (.err e)).jump lf.1 <;> simp [withFrame, hj]

/-- What a machine does once the running call has come to an end, if it comes to one: it goes on
where it has been left.  As long as the call has not ended, the machine has not halted. -/
def Follows (fuel : Nat) (callers : List Activation) (p : Progress) (w : World) :
    Option (Verdict × World) → Prop
  | none => (finish fuel p w).1 = none
  | some (v, w') =>
    ∃ k o, o.verdict = v ∧ ∀ m, finish (m + k) p w = finish m (leave o callers) w'

theorem Follows.left (fuel : Nat) (callers : List Activation) (o : Outcome) (w : World) :
    Follows fuel callers (leave o callers) w (some (o.verdict, w)) :=
  ⟨0, o, rfl, fun _ => rfl⟩

/-- Steps before a run do not change what follows. -/
theorem Follows.trans {fuel k : Nat} {callers : List Activation} {p q : Progress} {w w' : World}
    {r : Option (Verdict × World)} (hp : ∀ m, finish (m + k) p w = finish m q w')
    (hq : Follows fuel callers q w' r) : Follows fuel callers p w r := by
  cases r with
  | none =>
    have hnone : (finish fuel q w').1 = none := hq
    cases ho : (finish fuel p w).1 with
    | none => exact ho
    | some o =>
      -- With more fuel the run would still halt, but then so would what is left of it.
      have hsome : finish fuel p w = (some o, (finish fuel p w).2) := Prod.ext ho rfl
      have hmore := finish_mono hsome (Nat.le_add_right fuel k)
      rw [hp] at hmore
      rw [hmore] at hnone
      cases hnone
  | some vw =>
    obtain ⟨j, o, hv, ho⟩ := hq
    refine ⟨j + k, o, hv, fun m => ?_⟩
    rw [← Nat.add_assoc, hp, ho]

theorem Follows.step {fuel : Nat} {callers : List Activation} {m : Machine} {p : Progress}
    {w w' : World} {r : Option (Verdict × World)} (hs : m.step w = (p, w'))
    (hp : Follows fuel callers p w' r) : Follows (fuel + 1) callers (.running m) w r := by
  have hrun : ∀ n, finish (n + 1) (.running m) w = finish n p w' := by
    intro n; simp only [finish, run_succ, hs]
  cases r with
  | none => exact (congrArg Prod.fst (hrun fuel)).trans hp
  | some vw =>
    obtain ⟨k, o, hv, ho⟩ := hp
    exact ⟨k + 1, o, hv, fun n => by rw [← Nat.add_assoc, hrun, ho]⟩

/-- The machine runs a call as `execute` does. -/
def Agrees (fuel : Nat) : Prop :=
  ∀ callers a w, Follows fuel callers (.running ⟨a, callers⟩) w (execute fuel callers.length a w)

theorem Agrees.unwind {fuel : Nat} (h : Agrees fuel) (e : ScriptError) (trace : List TraceFrame)
    (a : Activation) (callers : List Activation) (w : World) :
    Follows fuel callers (unwind e trace a callers) w
      (recover (execute fuel callers.length) e a w) := by
  rw [unwind_eq, recover]
  cases a.frame.handler? e.code a.frame.scopes with
  | none => exact Follows.left fuel callers (.raised ⟨e, trace ++ [a.traceFrame]⟩) w
  | some lf =>
    simp only
    split
    · exact h callers _ w
    · exact Follows.left fuel callers .faulted w

/-- What follows an answer, an error or a fault of what the running call asked for. -/
theorem Agrees.proceed {fuel : Nat} (h : Agrees fuel) (o : Outcome) (a : Activation)
    (callers : List Activation) (w : World) :
    Follows fuel callers (leave o (a :: callers)) w
      (proceed (execute fuel callers.length) a o.verdict w) := by
  cases o with
  | returned v => exact h callers (a.push v) w
  | raised x => exact h.unwind x.error x.trace a callers w
  | faulted => exact Follows.left fuel callers .faulted w

/-- A request that no method has to run for. -/
theorem Agrees.respond {fuel : Nat} (h : Agrees fuel) (m : Machine) (action : ScriptAction Value)
    (w : World) :
    ∃ p w', serve.respond m action w = (p, w') ∧
      Follows fuel m.callers p w'
        (match action.attempt w with
        | none => none
        | some (v, w) => Activation.proceed (execute fuel m.callers.length) m.running v w) := by
  simp only [serve.respond, bind, StateT.bind, ScriptAction.attempt]
  rcases action.run w with ⟨_ | v, w₁⟩
  · exact ⟨_, _, rfl, h.unwind _ _ _ _ _⟩
  · exact ⟨_, _, rfl, h.proceed (.returned v) m.running m.callers w₁⟩

/-- A method that the running call calls. -/
theorem Agrees.enter {fuel : Nat} (h : Agrees fuel) (a : Activation) (callers : List Activation)
    (object name args : Value) (w : World) :
    ∃ p w', serve ⟨a, callers⟩ (.callMethod object name args) w = (p, w') ∧
      Follows fuel callers p w'
        (match a.serve (execute fuel (callers.length + 1)) callers.length
            (.callMethod object name args) w with
        | none => none
        | some (v, w) => Activation.proceed (execute fuel callers.length) a v w) := by
  simp only [serve, bind, StateT.bind, Activation.serve]
  rcases (enterMethod a callers.length object name args).run w with ⟨_ | callee, w₁⟩
  · exact ⟨_, _, rfl, h.unwind _ _ _ _ _⟩
  · refine ⟨_, _, rfl, ?_⟩
    have hc := h (a :: callers) callee w₁
    rw [List.length_cons] at hc
    simp only
    cases hr : execute fuel (callers.length + 1) callee w₁ with
    | none => rw [hr] at hc; exact hc
    | some vw =>
      rw [hr] at hc
      obtain ⟨k, o, hv, hk⟩ := hc
      simp only [← hv]
      exact Follows.trans hk (h.proceed o a callers vw.2)

theorem agrees (fuel : Nat) : Agrees fuel := by
  induction fuel with
  | zero => intro callers a w; rfl
  | succ fuel ih =>
    intro callers a w
    simp only [execute]
    cases hs : a.frame.step with
    | next f =>
      have hm : step ⟨a, callers⟩ w = (.running ⟨a.withFrame f, callers⟩, w) := by
        simp only [step, hs]; rfl
      exact Follows.step hm (ih callers _ w)
    | raise e f =>
      have hm : step ⟨a, callers⟩ w = (unwind e [] (a.withFrame f) callers, w) := by
        simp only [step, hs]; rfl
      exact Follows.step hm (ih.unwind e [] _ callers w)
    | «return» v =>
      have hm : step ⟨a, callers⟩ w = (leave (.returned v) callers, w) := by
        simp only [step, hs]; cases callers <;> rfl
      exact Follows.step hm (Follows.left fuel callers (.returned v) w)
    | fault =>
      have hm : step ⟨a, callers⟩ w = (leave .faulted callers, w) := by
        simp only [step, hs]; rfl
      exact Follows.step hm (Follows.left fuel callers .faulted w)
    | ask q f =>
      have hm : step ⟨a, callers⟩ w = serve ⟨a.withFrame f, callers⟩ q w := by
        simp only [step, hs]; rfl
      have asked : ∃ p w', serve ⟨a.withFrame f, callers⟩ q w = (p, w') ∧
          Follows fuel callers p w'
            (match (a.withFrame f).serve (execute fuel (callers.length + 1)) callers.length q w with
            | none => none
            | some (v, w) => Activation.proceed (execute fuel callers.length) (a.withFrame f) v w) := by
        cases q with
        | callMethod object name args => exact ih.enter _ callers object name args w
        | _ => exact ih.respond ⟨a.withFrame f, callers⟩ _ w
      obtain ⟨p, w', hp, hf⟩ := asked
      exact Follows.step (hm.trans hp) hf

/-- A run of the machine and the recursive run of its only call end together, alike, and in the
same world. -/
theorem run_iff_execute (a : Activation) (w w' : World) (v : Verdict) :
    (∃ fuel o, run fuel ⟨a, []⟩ w = (some o, w') ∧ o.verdict = v) ↔
      ∃ fuel, execute fuel 0 a w = some (v, w') := by
  constructor
  · rintro ⟨fuel, o, hrun, rfl⟩
    have hf := agrees fuel [] a w
    cases hr : execute fuel 0 a w with
    | none =>
      have hnone : (run fuel ⟨a, []⟩ w).1 = none := by rw [List.length_nil, hr] at hf; exact hf
      rw [hrun] at hnone
      cases hnone
    | some vw =>
      rw [List.length_nil, hr] at hf
      obtain ⟨k, o', hv, hk⟩ := hf
      have hmore := finish_mono (p := .running ⟨a, []⟩) hrun (Nat.le_add_right fuel k)
      rw [hk] at hmore
      have hleft : finish fuel (leave o' []) vw.2 = (some o', vw.2) := by cases o' <;> rfl
      rw [hleft] at hmore
      obtain ⟨ho, rfl⟩ := Prod.mk.inj hmore
      obtain rfl := Option.some.inj ho
      exact ⟨fuel, by rw [hr, hv]⟩
  · rintro ⟨fuel, hr⟩
    have hf := agrees fuel [] a w
    rw [List.length_nil, hr] at hf
    obtain ⟨k, o, hv, hk⟩ := hf
    refine ⟨k, o, ?_, hv⟩
    have hrun := hk 0
    rw [Nat.zero_add] at hrun
    exact hrun.trans (by cases o <;> rfl)

end Machine

end Lineage
