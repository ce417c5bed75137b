/-
  Lineage.Proofs.Script.Simulation

  How the run of a program follows an evaluation.

  A call is somewhere in its program, or it is raising an error, or it has ended
  (`Point`).  One point leads to another (`Leads`) when running on from the first comes
  to the same as running on from the second; this is what makes it possible to compare
  runs that never end.  `Sim` says that a call runs as an evaluation goes: it gets to
  where the value is, it raises the same error, or, when the fuel of the evaluation does
  not last, neither does that of the run.

  An error leaves everything on the stack that was below the code it comes from.
-/
import Lineage.Proofs.Machine.Frames
import Lineage.Proofs.Script.Evaluation

namespace Lineage.Script

open Activation

/-! ## Points of a run -/

/-- Where a call has got to. -/
inductive Point where
  | running (f : Frame) (w : World)
  | raising (e : ScriptError) (f : Frame) (w : World)
  | ended (v : Verdict) (w : World)

/-- Run on from a point. -/
def Point.exec (s : Scene) (n : Nat) : Point → Option (Verdict × World)
  | .running f w => execute n s.depth (s.call.withFrame f) w
  | .raising e f w => recover (execute n s.depth) e (s.call.withFrame f) w
  | .ended v w => some (v, w)

theorem Point.exec_mono {s : Scene} {m n : Nat} (h : m ≤ n) {c : Point} {r : Verdict × World}
    (hr : c.exec s m = some r) : c.exec s n = some r := by
  cases c with
  | running f w => exact execute_mono h s.depth _ _ _ hr
  | raising e f w => exact recover_mono (execute_mono h s.depth) hr
  | ended v w => exact hr

/-- Running on from one point comes to the same as running on from another, which is no earlier. -/
structure Leads (s : Scene) (c c' : Point) : Prop where
  forth : ∀ n r, c'.exec s n = some r → ∃ m, c.exec s m = some r
  back : ∀ n r, c.exec s n = some r → c'.exec s n = some r

/-- One point leads to another, which is at least one instruction further. -/
structure Steps (s : Scene) (c c' : Point) : Prop where
  forth : ∀ n r, c'.exec s n = some r → ∃ m, c.exec s m = some r
  back : ∀ n r, c.exec s (n + 1) = some r → c'.exec s n = some r

section

variable {s : Scene} {c c₁ c₂ : Point}

theorem Leads.refl (s : Scene) (c : Point) : Leads s c c := ⟨fun n _ h => ⟨n, h⟩, fun _ _ h => h⟩

theorem Leads.trans (h : Leads s c c₁) (k : Leads s c₁ c₂) : Leads s c c₂ where
  forth n r hr := by
    obtain ⟨m, hm⟩ := k.forth n r hr
    exact h.forth m r hm
  back n r hr := k.back n r (h.back n r hr)

theorem Steps.leads (h : Steps s c c₁) : Leads s c c₁ where
  forth := h.forth
  back n r hr := h.back n r (Point.exec_mono (Nat.le_succ n) hr)

theorem Steps.trans (h : Steps s c c₁) (k : Leads s c₁ c₂) : Steps s c c₂ where
  forth n r hr := by
    obtain ⟨m, hm⟩ := k.forth n r hr
    exact h.forth m r hm
  back n r hr := k.back n r (h.back n r hr)

/-- If running on from the second point does not end, neither does running on from the first. -/
theorem Leads.stuck (h : Leads s c c₁) {n : Nat} (hn : c₁.exec s n = none) : c.exec s n = none := by
  cases hc : c.exec s n with
  | none => rfl
  | some r => rw [h.back n r hc] at hn; cases hn

theorem Steps.stuck (h : Steps s c c₁) {n : Nat} (hn : c₁.exec s n = none) :
    c.exec s (n + 1) = none := by
  cases hc : c.exec s (n + 1) with
  | none => rfl
  | some r => rw [h.back n r hc] at hn; cases hn

theorem Leads.of_eq (h : ∀ n, c.exec s n = c₁.exec s n) : Leads s c c₁ where
  forth n _ hr := ⟨n, (h n).trans hr⟩
  back n _ hr := (h n).symm.trans hr

theorem Steps.of_eq (h : ∀ n, c.exec s (n + 1) = c₁.exec s n) : Steps s c c₁ where
  forth n _ hr := ⟨n + 1, (h n).trans hr⟩
  back n _ hr := (h n).symm.trans hr

/-! ## One instruction -/

variable {f f' : Frame} {w : World} {e : ScriptError} {v : Value}

theorem Steps.next (h : f.step = .next f') : Steps s (.running f w) (.running f' w) := by
  refine .of_eq fun n => ?_
  have hstep : (s.call.withFrame f).frame.step = .next f' := h
  simp only [Point.exec, execute, hstep]
  rfl

theorem Steps.raise (h : f.step = .raise e f') : Steps s (.running f w) (.raising e f' w) := by
  refine .of_eq fun n => ?_
  have hstep : (s.call.withFrame f).frame.step = .raise e f' := h
  simp only [Point.exec, execute, hstep]
  rfl

theorem Steps.return (h : f.step = .return v) :
    Steps s (.running f w) (.ended (.returned v) w) := by
  refine .of_eq fun n => ?_
  have hstep : (s.call.withFrame f).frame.step = .return v := h
  simp only [Point.exec, execute, hstep]

theorem Steps.fault (h : f.step = .fault) : Steps s (.running f w) (.ended .faulted w) := by
  refine .of_eq fun n => ?_
  have hstep : (s.call.withFrame f).frame.step = .fault := h
  simp only [Point.exec, execute, hstep]

/-- What a call asks for depends on the call alone, not on where it is. -/
theorem serve_withFrame (enter : Activation → Attempt) (a : Activation) (f : Frame) (depth : Nat)
    (q : Request) : serve enter (a.withFrame f) depth q = serve enter a depth q := by
  cases q <;> rfl

/-- Where a call is after an answer. -/
def Point.after (f : Frame) (w : World) : Verdict → Point
  | .returned v => .running (f.push v) w
  | .raised e => .raising e f w
  | .faulted => .ended .faulted w

theorem Point.after_exec (n : Nat) (v : Verdict) :
    (Point.after f w v).exec s n = proceed (execute n s.depth) (s.call.withFrame f) v w := by
  cases v <;> rfl

/-- How the answer to a request is found. -/
def Scene.answer (s : Scene) (n : Nat) (q : Request) : Attempt :=
  s.call.serve (execute n (s.depth + 1)) s.depth q

theorem Scene.answer_mono {m n : Nat} (h : m ≤ n) {q : Request} {r : Verdict × World}
    (hr : s.answer m q w = some r) : s.answer n q w = some r :=
  serve_mono (execute_mono h (s.depth + 1)) hr

theorem Scene.ask_eq (s : Scene) (q : Request) (env : Env) (w : World) :
    s.ask q env w = match s.answer s.fuel q w with
      | none => none
      | some (.returned v, w) => some (.ok v, env, w)
      | some (.raised e, w) => some (.error (.raised e), env, w)
      | some (.faulted, w) => some (.error .faulted, env, w) := rfl

theorem exec_ask {q : Request} (h : f.step = .ask q f') (n : Nat) :
    (Point.running f w).exec s (n + 1) = match s.answer n q w with
      | none => none
      | some (v, w) => (Point.after f' w v).exec s n := by
  have hstep : (s.call.withFrame f).frame.step = .ask q f' := h
  simp only [Point.exec, execute, hstep, Scene.answer]
  rw [show (s.call.withFrame f).withFrame f' = s.call.withFrame f' from rfl, serve_withFrame]
  cases s.call.serve (execute n (s.depth + 1)) s.depth q w with
  | none => rfl
  | some r => exact (Point.after_exec n r.1).symm

/-- An answer that is found leads on, however much fuel it takes. -/
theorem Leads.ask {q : Request} {n : Nat} {r : Verdict} {w' : World} (h : f.step = .ask q f')
    (hr : s.answer n q w = some (r, w')) : Leads s (.running f w) (Point.after f' w' r) where
  forth m t ht := by
    refine ⟨max m n + 1, ?_⟩
    rw [exec_ask h, Scene.answer_mono (Nat.le_max_right m n) hr]
    exact Point.exec_mono (Nat.le_max_left m n) ht
  back m t ht := by
    cases m with
    | zero => cases ht
    | succ m =>
      rw [exec_ask h] at ht
      cases hm : s.answer m q w with
      | none => rw [hm] at ht; cases ht
      | some r' =>
        -- Both answers are the one that is found with the greater fuel.
        have hmax := Scene.answer_mono (Nat.le_max_left m n) hm
        rw [Scene.answer_mono (Nat.le_max_right m n) hr] at hmax
        obtain rfl := Option.some.inj hmax
        rw [hm] at ht
        exact Point.exec_mono (Nat.le_succ m) ht

theorem stuck_ask {q : Request} {m n : Nat} (h : f.step = .ask q f') (hr : s.answer n q w = none)
    (hm : m ≤ n) : (Point.running f w).exec s m = none := by
  cases m with
  | zero => rfl
  | succ m =>
    rw [exec_ask h]
    cases hv : s.answer m q w with
    | none => rfl
    | some r => rw [Scene.answer_mono (by omega) hv] at hr; cases hr

end

/-! ## Runs that follow evaluations -/

/-- What is known of where a call is. -/
abbrev Whereabouts := Env → World → Point → Prop

/-- A call goes from one point as an evaluation ends.  Errors leave the scopes and everything that is
`below` on the stack. -/
def Meets {α : Type} (s : Scene) (p : Program) (below : List Value) (scopes : List Lineage.Scope) (n : Nat)
    (post : α → Whereabouts) (size : Nat) (c : Point) : Option (Except Stop α × Env × World) → Prop
  | none => c.exec s n = none
  | some (.ok a, env, w) => env.size = size ∧ ∃ c', Leads s c c' ∧ post a env w c'
  | some (.error (.raised e), env, w) => env.size = size ∧ ∃ f, Leads s c (.raising e f w) ∧
      f.program = p ∧ f.env = env ∧ f.scopes = scopes ∧ below <:+ f.stack
  | some (.error .faulted, _, w) => Leads s c (.ended .faulted w)

/-- From a point as in `pre`, a call runs as `x` goes, and gets to a point as in `post`. -/
def Sim {α : Type} (s : Scene) (p : Program) (below : List Value) (scopes : List Lineage.Scope) (n : Nat)
    (pre : Whereabouts) (x : Eval α) (post : α → Whereabouts) : Prop :=
  ∀ env w c, p.names.width ≤ env.size → pre env w c →
    Meets s p below scopes n post env.size c (x env w)

/-- Instructions that no evaluation is needed for. -/
def Goes (s : Scene) (p : Program) (pre post : Whereabouts) : Prop :=
  ∀ env w c, p.names.width ≤ env.size → pre env w c → ∃ c', Steps s c c' ∧ post env w c'

/-- Where a call gets to, perhaps without any instruction. -/
def Gets (s : Scene) (p : Program) (pre post : Whereabouts) : Prop :=
  ∀ env w c, p.names.width ≤ env.size → pre env w c → ∃ c', Leads s c c' ∧ post env w c'

theorem Goes.gets {s : Scene} {p : Program} {pre post : Whereabouts} (h : Goes s p pre post) :
    Gets s p pre post := by
  intro env w c henv hc
  obtain ⟨c', hc', hpost⟩ := h env w c henv hc
  exact ⟨c', hc'.leads, hpost⟩

theorem Gets.of_imp {s : Scene} {p : Program} {pre post : Whereabouts}
    (h : ∀ env w c, pre env w c → post env w c) : Gets s p pre post :=
  fun env w c _ hc => ⟨c, .refl s c, h env w c hc⟩

section

variable {α β : Type} {s : Scene} {p : Program} {below : List Value} {scopes : List Lineage.Scope} {n : Nat}
  {pre : Whereabouts} {x : Eval α} {mid : α → Whereabouts} {post : β → Whereabouts}

theorem Meets.before {c c' : Point} {size : Nat} {r : Option (Except Stop α × Env × World)}
    (hc : Leads s c c') (h : Meets s p below scopes n mid size c' r) :
    Meets s p below scopes n mid size c r := by
  rcases r with _ | ⟨⟨e⟩ | a, env, w⟩
  · exact hc.stuck h
  · cases e with
    | raised e =>
      obtain ⟨hsize, f, hf, hrest⟩ := h
      exact ⟨hsize, f, hc.trans hf, hrest⟩
    | faulted => exact hc.trans h
  · obtain ⟨hsize, c'', hc', hpost⟩ := h
    exact ⟨hsize, c'', hc.trans hc', hpost⟩

namespace Sim

theorem pure {a : α} (h : ∀ env w c, pre env w c → mid a env w c) :
    Sim s p below scopes n pre (Pure.pure a : Eval α) mid := by
  intro env w c _ hc
  exact ⟨rfl, c, .refl s c, h env w c hc⟩

theorem bind {f : α → Eval β} (hx : Sim s p below scopes n pre x mid)
    (hf : ∀ a, Sim s p below scopes n (mid a) (f a) post) :
    Sim s p below scopes n pre (x >>= f) post := by
  intro env w c henv hc
  have hx := hx env w c henv hc
  rw [Eval.bind_apply]
  generalize x env w = r at hx ⊢
  rcases r with _ | ⟨⟨e⟩ | a, env₁, w₁⟩
  · exact hx
  · cases e <;> exact hx
  · obtain ⟨hsize, c₁, hc₁, hmid⟩ := hx
    have hnext := hf a env₁ w₁ c₁ (hsize ▸ henv) hmid
    rw [hsize] at hnext
    exact hnext.before hc₁

/-- What leads to where an evaluation starts. -/
theorem started {start : Whereabouts} (hx : Sim s p below scopes n pre x mid)
    (hg : Gets s p start pre) : Sim s p below scopes n start x mid := by
  intro env w c henv hc
  obtain ⟨c', hc', hpre⟩ := hg env w c henv hc
  exact (hx env w c' henv hpre).before hc'

/-- Instructions before an evaluation. -/
theorem before {mid : Whereabouts} {x : Eval β} (hg : Goes s p pre mid)
    (hx : Sim s p below scopes n mid x post) : Sim s p below scopes n pre x post :=
  hx.started hg.gets

/-- Instructions before an evaluation with less fuel. -/
theorem before_succ {mid : Whereabouts} {x : Eval β} (hg : Goes s p pre mid)
    (hx : Sim s p below scopes n mid x post) : Sim s p below scopes (n + 1) pre x post := by
  intro env w c henv hc
  obtain ⟨c', hc', hmid⟩ := hg env w c henv hc
  have hx := hx env w c' henv hmid
  generalize x env w = r at hx ⊢
  rcases r with _ | ⟨⟨e⟩ | b, env₁, w₁⟩
  · exact hc'.stuck hx
  · cases e <;> exact Meets.before hc'.leads hx
  · exact Meets.before hc'.leads hx

/-- Instructions after an evaluation. -/
theorem after {post : α → Whereabouts} (hx : Sim s p below scopes n pre x mid)
    (hg : ∀ a, Gets s p (mid a) (post a)) : Sim s p below scopes n pre x post := by
  have hend (a : α) : Sim s p below scopes n (mid a) (Pure.pure a) post := by
    intro env w c henv hc
    obtain ⟨c', hc', hpost⟩ := hg a env w c henv hc
    exact ⟨rfl, c', hc', hpost⟩
  have h : Sim s p below scopes n pre (x >>= Pure.pure) post := hx.bind hend
  rwa [bind_pure] at h

theorem imp {post : α → Whereabouts} (hx : Sim s p below scopes n pre x mid)
    (h : ∀ a env w c, mid a env w c → post a env w c) : Sim s p below scopes n pre x post :=
  hx.after fun a => .of_imp (h a)

theorem from_ {start : Whereabouts} (hx : Sim s p below scopes n pre x mid)
    (h : ∀ env w c, start env w c → pre env w c) : Sim s p below scopes n start x mid :=
  fun env w c henv hc => hx env w c henv (h env w c hc)

/-- Less fuel lasts for even less. -/
theorem less {m : Nat} (hx : Sim s p below scopes n pre x mid) (h : m ≤ n) :
    Sim s p below scopes m pre x mid := by
  intro env w c henv hc
  have hx := hx env w c henv hc
  generalize x env w = r at hx ⊢
  rcases r with _ | ⟨⟨e⟩ | a, env₁, w₁⟩
  · have hnone : c.exec s n = none := hx
    cases hm : c.exec s m with
    | none => exact hm
    | some r => rw [Point.exec_mono h hm] at hnone; cases hnone
  · cases e <;> exact hx
  · exact hx

/-- What is below less is below more. -/
theorem lower {less : List Value} (hx : Sim s p below scopes n pre x mid) (h : less <:+ below) :
    Sim s p less scopes n pre x mid := by
  intro env w c henv hc
  have hx := hx env w c henv hc
  generalize x env w = r at hx ⊢
  rcases r with _ | ⟨⟨e⟩ | a, env₁, w₁⟩
  · exact hx
  · cases e with
    | raised e =>
      obtain ⟨hsize, f, hf, hp, he, hs, hb⟩ := hx
      exact ⟨hsize, f, hf, hp, he, hs, h.trans hb⟩
    | faulted => exact hx
  · exact hx

/-- What is true of a value that an evaluation gives. -/
theorem value {Q : α → Prop} (hx : Sim s p below scopes n pre x mid)
    (h : ∀ {env w a env' w'}, x env w = some (.ok a, env', w') → Q a) :
    Sim s p below scopes n pre x fun a env w c => Q a ∧ mid a env w c := by
  intro env w c henv hc
  have hx := hx env w c henv hc
  have hQ := @h env w
  generalize x env w = r at hx hQ ⊢
  rcases r with _ | ⟨⟨e⟩ | a, env₁, w₁⟩
  · exact hx
  · cases e <;> exact hx
  · obtain ⟨hsize, c', hc', hmid⟩ := hx
    exact ⟨hsize, c', hc', hQ rfl, hmid⟩

theorem and {Q : Prop} (h : Q → Sim s p below scopes n pre x mid) :
    Sim s p below scopes n (fun env w c => Q ∧ pre env w c) x mid := by
  rintro env w c henv ⟨hQ, hc⟩
  exact h hQ env w c henv hc

theorem «exists» {ι : Type} {Q : ι → Prop} {pre : ι → Whereabouts}
    (h : ∀ i, Q i → Sim s p below scopes n (pre i) x mid) :
    Sim s p below scopes n (fun env w c => ∃ i, Q i ∧ pre i env w c) x mid := by
  rintro env w c henv ⟨i, hi, hc⟩
  exact h i hi env w c henv hc

end Sim

end

/-! ## Places in a program -/

/-- A frame of a program. -/
def frame (p : Program) (i : Nat) (stack : List Value) (scopes : List Lineage.Scope)
    (catches : List (Catch × Label)) (kept : Value) (env : Env) : Frame where
  program := p
  pc := i
  env := env
  stack := stack
  scopes := scopes
  kept := kept
  catches := catches

/-- A call is at a place of its program, with `kept` put aside. -/
def Holding (p : Program) (kept : Value) (i : Nat) (stack : List Value) (scopes : List Lineage.Scope)
    (catches : List (Catch × Label)) : Whereabouts :=
  fun env w c => c = .running (frame p i stack scopes catches kept env) w

/-- A call is at a place of its program. -/
def Here (p : Program) (i : Nat) (stack : List Value) (scopes : List Lineage.Scope)
    (catches : List (Catch × Label)) : Whereabouts :=
  fun env w c => ∃ kept, Holding p kept i stack scopes catches env w c

section

variable {s : Scene} {p : Program} {below stack rest : List Value} {scopes : List Lineage.Scope}
  {catches : List (Catch × Label)} {n i : Nat} {op : Op}

theorem frame_step {kept : Value} {env : Env} (h : p.ops[i]? = some op) :
    (frame p i stack scopes catches kept env).step =
      (frame p (i + 1) stack scopes catches kept env).perform op := by
  have hop : (frame p i stack scopes catches kept env).program.ops[i]? = some op := h
  simp only [Frame.step, frame] at hop ⊢
  rw [hop]

/-- An instruction that only moves on. -/
theorem Goes.instruction {j : Nat} {stack' : List Value} {scopes' : List Lineage.Scope}
    {catches' : List (Catch × Label)} (hop : p.ops[i]? = some op)
    (h : ∀ kept env, ∃ kept', (frame p (i + 1) stack scopes catches kept env).perform op =
      .next (frame p j stack' scopes' catches' kept' env)) :
    Goes s p (Here p i stack scopes catches) (Here p j stack' scopes' catches') := by
  rintro env w c - ⟨kept, rfl⟩
  obtain ⟨kept', hp⟩ := h kept env
  exact ⟨_, .next ((frame_step hop).trans hp), kept', rfl⟩

/-- Putting a value aside. -/
theorem Goes.keep {v : Value} (hop : p.ops[i]? = some .keepTop) :
    Goes s p (Here p i (v :: stack) scopes catches)
      (Holding p v (i + 1) (v :: stack) scopes catches) := by
  rintro env w c - ⟨kept, rfl⟩
  exact ⟨_, .next (frame_step hop), rfl⟩

/-- Taking up a value that was put aside, in the place of another. -/
theorem Goes.restore {u v : Value} (hpop : p.ops[i]? = some .pop)
    (hpush : p.ops[i + 1]? = some .pushKept) :
    Goes s p (Holding p v i (u :: stack) scopes catches)
      (Here p (i + 2) (v :: stack) scopes catches) := by
  rintro env w c - rfl
  have hfirst : Steps s (.running (frame p i (u :: stack) scopes catches v env) w)
      (.running (frame p (i + 1) stack scopes catches v env) w) := .next (frame_step hpop)
  have hsecond : Steps s (.running (frame p (i + 1) stack scopes catches v env) w)
      (.running (frame p (i + 2) (v :: stack) scopes catches .null env) w) :=
    .next (frame_step hpush)
  exact ⟨_, hfirst.trans hsecond.leads, .null, rfl⟩

/-- An instruction that works on values, with `kept` put aside. -/
theorem Sim.apply_holding {kept : Value} {r : Except ScriptError Value} (hop : p.ops[i]? = some op)
    (h : ∀ env, (frame p (i + 1) stack scopes catches kept env).perform op =
      (frame p (i + 1) rest scopes catches kept env).finishWith r) (hb : below <:+ rest) :
    Sim s p below scopes n (Holding p kept i stack scopes catches) (Eval.of r)
      fun v => Holding p kept (i + 1) (v :: rest) scopes catches := by
  rintro env w c - rfl
  have hstep := (frame_step hop).trans (h env)
  cases r with
  | ok v => exact ⟨rfl, _, (Steps.next hstep).leads, rfl⟩
  | error e => exact ⟨rfl, _, (Steps.raise hstep).leads, rfl, rfl, rfl, hb⟩

/-- An instruction that works on values. -/
theorem Sim.apply {r : Except ScriptError Value} (hop : p.ops[i]? = some op)
    (h : ∀ kept env, (frame p (i + 1) stack scopes catches kept env).perform op =
      (frame p (i + 1) rest scopes catches kept env).finishWith r) (hb : below <:+ rest) :
    Sim s p below scopes n (Here p i stack scopes catches) (Eval.of r)
      fun v => Here p (i + 1) (v :: rest) scopes catches := by
  rintro env w c henv ⟨kept, hc⟩
  have hx : Sim s p below scopes n (Holding p kept i stack scopes catches) (Eval.of r)
      fun v => Here p (i + 1) (v :: rest) scopes catches :=
    (Sim.apply_holding hop (h kept) hb).imp fun v _ _ _ hc => ⟨kept, hc⟩
  exact hx env w c henv hc

/-- An instruction that raises an error. -/
theorem Sim.raise {α : Type} {e : ScriptError} {post : α → Whereabouts}
    (hop : p.ops[i]? = some op)
    (h : ∀ kept env, (frame p (i + 1) stack scopes catches kept env).perform op =
      .raise e (frame p (i + 1) rest scopes catches kept env)) (hb : below <:+ rest) :
    Sim s p below scopes n (Here p i stack scopes catches) (Eval.raise e) post := by
  rintro env w c - ⟨kept, rfl⟩
  exact ⟨rfl, _, (Steps.raise ((frame_step hop).trans (h kept env))).leads, rfl, rfl, rfl, hb⟩

/-- An instruction that asks the world, with `kept` put aside. -/
theorem Sim.ask_holding {kept : Value} {q : Request} (hop : p.ops[i]? = some op)
    (h : ∀ env, (frame p (i + 1) stack scopes catches kept env).perform op =
      .ask q (frame p (i + 1) rest scopes catches kept env)) (hb : below <:+ rest) :
    Sim s p below scopes s.fuel (Holding p kept i stack scopes catches) (s.ask q)
      fun v => Holding p kept (i + 1) (v :: rest) scopes catches := by
  rintro env w c - rfl
  have hstep := (frame_step hop).trans (h env)
  rw [Scene.ask_eq]
  rcases hr : s.answer s.fuel q w with _ | ⟨v | e | _, w'⟩
  · exact stuck_ask hstep hr (Nat.le_refl _)
  · exact ⟨rfl, _, Leads.ask hstep hr, rfl⟩
  · exact ⟨rfl, _, Leads.ask hstep hr, rfl, rfl, rfl, hb⟩
  · exact Leads.ask hstep hr

/-- An instruction that asks the world. -/
theorem Sim.ask {q : Request} (hop : p.ops[i]? = some op)
    (h : ∀ kept env, (frame p (i + 1) stack scopes catches kept env).perform op =
      .ask q (frame p (i + 1) rest scopes catches kept env)) (hb : below <:+ rest) :
    Sim s p below scopes s.fuel (Here p i stack scopes catches) (s.ask q)
      fun v => Here p (i + 1) (v :: rest) scopes catches := by
  rintro env w c henv ⟨kept, hc⟩
  have hx : Sim s p below scopes s.fuel (Holding p kept i stack scopes catches) (s.ask q)
      fun v => Here p (i + 1) (v :: rest) scopes catches :=
    (Sim.ask_holding hop (h kept) hb).imp fun v _ _ _ hc => ⟨kept, hc⟩
  exact hx env w c henv hc

/-- An instruction that does what code must never do. -/
theorem Sim.fault {α : Type} {post : α → Whereabouts} (hop : p.ops[i]? = some op)
    (h : ∀ kept env, (frame p (i + 1) stack scopes catches kept env).perform op = .fault) :
    Sim s p below scopes n (Here p i stack scopes catches) (Eval.stop .faulted) post := by
  rintro env w c - ⟨kept, rfl⟩
  exact (Steps.fault ((frame_step hop).trans (h kept env))).leads

theorem Sim.here {α : Type} {x : Eval α} {post : α → Whereabouts}
    (h : ∀ kept, Sim s p below scopes n (Holding p kept i stack scopes catches) x post) :
    Sim s p below scopes n (Here p i stack scopes catches) x post := by
  rintro env w c henv ⟨kept, hc⟩
  exact h kept env w c henv hc

/-- An instruction that sets a variable, with `kept` put aside. -/
theorem Sim.binds {kept v : Value} {name : Name} {j : Nat} {stack' : List Value}
    (hop : p.ops[i]? = some op) (hname : name.slot.toNat < p.names.width)
    (h : ∀ env, (frame p (i + 1) stack scopes catches kept env).perform op =
      match (frame p j stack' scopes catches kept env).bind name v with
      | some f => .next f
      | none => .fault) :
    Sim s p below scopes n (Holding p kept i stack scopes catches) (Eval.set name v)
      fun _ => Holding p kept j stack' scopes catches := by
  rintro env w c henv rfl
  have hslot : name.slot.toNat < env.size := by omega
  have hstep : (frame p i stack scopes catches kept env).step =
      .next (frame p j stack' scopes catches kept
        (env.setIfInBounds name.slot.toNat (some v))) := by
    rw [frame_step hop, h, Frame.bind_slot hslot]
    rfl
  exact ⟨by simp, _, (Steps.next hstep).leads, rfl⟩

/-- Setting a variable, with `kept` put aside. -/
theorem Sim.store {kept v : Value} {name : Name} (hop : p.ops[i]? = some (.store name))
    (hname : name.slot.toNat < p.names.width) :
    Sim s p below scopes n (Holding p kept i (v :: stack) scopes catches) (Eval.set name v)
      fun _ => Holding p kept (i + 1) (v :: stack) scopes catches :=
  .binds hop hname fun _ => rfl

theorem Sim.store_here {v : Value} {name : Name} (hop : p.ops[i]? = some (.store name))
    (hname : name.slot.toNat < p.names.width) :
    Sim s p below scopes n (Here p i (v :: stack) scopes catches) (Eval.set name v)
      fun _ => Here p (i + 1) (v :: stack) scopes catches := by
  rintro env w c henv ⟨kept, hc⟩
  have hx : Sim s p below scopes n (Holding p kept i (v :: stack) scopes catches) (Eval.set name v)
      fun _ => Here p (i + 1) (v :: stack) scopes catches :=
    (Sim.store hop hname).imp fun _ _ _ _ hc => ⟨kept, hc⟩
  exact hx env w c henv hc

/-- Reading a variable. -/
theorem Sim.load {name : Name} (hop : p.ops[i]? = some (.load name)) :
    Sim s p stack scopes n (Here p i stack scopes catches) (Eval.get p.names name)
      fun v => Here p (i + 1) (v :: stack) scopes catches := by
  rintro env w c - ⟨kept, rfl⟩
  have hstep : (frame p i stack scopes catches kept env).step =
      (frame p (i + 1) stack scopes catches kept env).finishWith
        ((frame p (i + 1) stack scopes catches kept env).read name) := by
    rw [frame_step hop]; rfl
  simp only [Frame.read, frame] at hstep
  simp only [Eval.get]
  rcases hv : env[name.slot.toNat]? with _ | _ | v
  all_goals simp only [hv] at hstep
  · exact ⟨rfl, _, (Steps.raise hstep).leads, rfl, rfl, rfl, List.suffix_refl _⟩
  · exact ⟨rfl, _, (Steps.raise hstep).leads, rfl, rfl, rfl, List.suffix_refl _⟩
  · exact ⟨rfl, _, (Steps.next hstep).leads, kept, rfl⟩

end

end Lineage.Script
