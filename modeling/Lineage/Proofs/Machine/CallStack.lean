/-
  Lineage.Proofs.Machine.CallStack

  The calls that are open while a machine runs.

  A step of a running machine leaves some of the innermost calls, or opens one on top of
  all that there are (`step_running`); nothing it does to the variables of a call changes
  who that call is.  So all along a run the open calls are those that began and did not
  end, each with the caller and the player that it was given (`Machine.Unfolds.orderly`),
  and no more of them than the settings allow.  An error that nothing takes leaves all of
  them, innermost first (`step_raised`).
-/
import Mathlib.Data.List.Chain
import Lineage.Proofs.Machine.Execution
import Lineage.Proofs.Machine.Reachable
import Lineage.Proofs.World.Stock

namespace Lineage

open Script (GlobalName)

-- Nothing here depends on what the compiler makes of a source.
attribute [local irreducible] Program.compile

/-! ## The line of an error -/

/-- The frames that a reply raises an error in, or asks from, are at a place. -/
def Reply.Past (n : Nat) : Reply → Prop
  | .raise _ f | .ask _ f => f.pc = n
  | .next _ | .return _ | .fault => True

namespace Frame

theorem jump_past (f : Frame) (l : Label) (n : Nat) : (f.jump l).Past n := by
  unfold jump
  split
  · trivial
  · trivial

theorem jumpUnless_past (f : Frame) (holds : Bool) (l : Label) (n : Nat) :
    (f.jumpUnless holds l).Past n := by
  cases holds with
  | true => trivial
  | false => exact jump_past f l n

theorem finishWith_past (f : Frame) (r : Except ScriptError Value) : (f.finishWith r).Past f.pc := by
  cases r with
  | ok v => trivial
  | error e => rfl

theorem bind_past (f : Frame) (name : Script.Name) (v : Value) (n : Nat) :
    (match f.bind name v with
      | some f => Reply.next f
      | none => .fault).Past n := by
  split
  · trivial
  · trivial

theorem stepForList_past (f : Frame) (name : Script.Name) (l : Label) :
    (f.stepForList name l).Past f.pc := by
  unfold stepForList
  split
  · split
    · split
      · exact bind_past _ name _ _
      · exact jump_past _ l _
    · rfl
  · trivial

theorem stepForRange_past (f : Frame) (name : Script.Name) (l : Label) :
    (f.stepForRange name l).Past f.pc := by
  unfold stepForRange
  split
  · split
    · split
      · exact jump_past _ l _
      · exact bind_past _ name _ _
    · rfl
  · trivial

theorem stepScatter_past (f : Frame) (slot : UInt16) : (f.stepScatter slot).Past f.pc := by
  unfold stepScatter
  split
  · split
    · split
      · rfl
      · split
        · exact jump_past _ _ _
        · trivial
    · rfl
  · trivial

theorem perform_past (f : Frame) (op : Op) : (f.perform op).Past f.pc := by
  unfold perform
  split
  all_goals first
    | rfl
    | trivial
    | exact jump_past _ _ _
    | exact jumpUnless_past _ _ _ _
    | exact finishWith_past _ _
    | exact bind_past _ _ _ _
    | exact stepForList_past _ _ _
    | exact stepForRange_past _ _ _
    | exact stepScatter_past _ _
    | skip
  -- What is left looks at an operand or at the open scopes before it goes on.
  all_goals split
  all_goals first
    | rfl
    | trivial
    | exact jump_past _ _ _
    | exact finishWith_past _ _

theorem step_past (f : Frame) : f.step.Past (f.pc + 1) := by
  unfold step
  split
  · trivial
  · exact perform_past { f with pc := f.pc + 1 } _

end Frame

/-! ## Open calls -/

/-- Who a call is, whatever its program does: the object and the owner of the method, its name, and
the player. -/
def Activation.identity (a : Activation) : ObjectId × ObjectId × String × ObjectId :=
  (a.this, a.definer, a.method, a.player)

/-- A call of which nothing has run yet, by another one: the variables say who calls, and for which
player. -/
structure Activation.CalledBy (player : ObjectId) (callee caller : Activation) : Prop where
  caller : callee.frame.env[GlobalName.slot .caller]? = some (some (.obj caller.this))
  player : callee.frame.env[GlobalName.slot .player]? = some (some (.obj player))

namespace Machine

/-- The open calls, innermost first. -/
def stack (m : Machine) : List Activation := m.running :: m.callers

/-- The lines of the open calls, innermost first; of the running call, the line of its next
instruction. -/
def lines (m : Machine) : List TraceFrame :=
  ⟨m.running.this, m.running.definer, m.running.method,
    m.running.frame.program.lineOf m.running.frame.pc⟩ :: m.callers.map Activation.traceFrame

/-- The calls that are still open after a step, as they were when they began. -/
def tracked (m : Machine) (opened : List Activation) : List Activation :=
  if opened.length < m.stack.length then m.running :: opened
  else opened.drop (opened.length - m.stack.length)

/-- A run of a call, with all calls that are open in the end as they were when they began. -/
inductive Unfolds (a : Activation) (w : World) : Machine → World → List Activation → Prop
  | start : Unfolds a w ⟨a, []⟩ w [a]
  | step {m₁ m₂ : Machine} {w₁ w₂ : World} {opened : List Activation} :
      Unfolds a w m₁ w₁ opened → m₁.step w₁ = (.running m₂, w₂) →
      Unfolds a w m₂ w₂ (m₂.tracked opened)

/-- Every run has such a history. -/
theorem Reaches.unfolds {a : Activation} {w w' : World} {m : Machine}
    (h : Reaches ⟨a, []⟩ w m w') : ∃ opened, Unfolds a w m w' opened := by
  induction h with
  | start => exact ⟨[a], .start⟩
  | step _ hstep ih =>
    obtain ⟨opened, hopened⟩ := ih
    exact ⟨_, hopened.step hstep⟩

/-! ## Steps -/

/-- A machine of which some of the innermost calls have been left. -/
def Left (m m' : Machine) : Prop :=
  ∃ k, k < m.stack.length ∧ m'.stack.map Activation.identity = (m.stack.drop k).map Activation.identity

theorem catchIn_running {e : ScriptError} {a : Activation} {callers : List Activation} {m : Machine}
    (h : catchIn e a callers = some (.running m)) :
    m.stack.map Activation.identity = (a :: callers).map Activation.identity := by
  unfold catchIn at h
  split at h
  · cases h
  · split at h
    · cases h
      rfl
    · cases h

theorem catchIn_not_raised {e : ScriptError} {a : Activation} {callers : List Activation}
    {x : Exception} : catchIn e a callers ≠ some (.halted (.raised x)) := by
  unfold catchIn
  split
  · exact nofun
  · split
    · exact nofun
    · exact nofun

/-- An error that is taken leaves the calls further in than the one that takes it. -/
theorem unwind_running {e : ScriptError} {trace : List TraceFrame} {a : Activation}
    {callers : List Activation} {m : Machine} (h : unwind e trace a callers = .running m) :
    Left ⟨a, callers⟩ m := by
  induction callers generalizing a trace with
  | nil =>
    simp only [unwind] at h
    split at h
    · rename_i hcatch
      exact ⟨0, Nat.zero_lt_succ _, catchIn_running (h ▸ hcatch)⟩
    · cases h
  | cons caller callers ih =>
    simp only [unwind] at h
    split at h
    · rename_i hcatch
      exact ⟨0, Nat.zero_lt_succ _, catchIn_running (h ▸ hcatch)⟩
    · obtain ⟨k, hk, hstack⟩ := ih h
      exact ⟨k + 1, Nat.succ_lt_succ hk, hstack⟩

/-- An error that is not taken adds all open calls to its trace, innermost first. -/
theorem unwind_raised {e : ScriptError} {trace : List TraceFrame} {a : Activation}
    {callers : List Activation} {x : Exception} (h : unwind e trace a callers = .halted (.raised x)) :
    x = ⟨e, trace ++ (a :: callers).map Activation.traceFrame⟩ := by
  induction callers generalizing a trace with
  | nil =>
    simp only [unwind] at h
    split at h
    · rename_i hcatch
      exact absurd (h ▸ hcatch) catchIn_not_raised
    · cases h
      rfl
  | cons caller callers ih =>
    simp only [unwind] at h
    split at h
    · rename_i hcatch
      exact absurd (h ▸ hcatch) catchIn_not_raised
    · rw [ih h, List.append_assoc]
      rfl

variable {m m' : Machine} {w w' : World}

/-- What a step can do, and the world after it. -/
inductive Turn (m : Machine) (w : World) : Progress → World → Prop
  /-- The running call goes on, perhaps with an answer. -/
  | stays (f : Frame) (w' : World) : Turn m w (.running ⟨m.running.withFrame f, m.callers⟩) w'
  | raises (e : ScriptError) (f : Frame) (w' : World) (hprogram : f.program = m.running.frame.program)
      (hpc : f.pc = m.running.frame.pc + 1) :
      Turn m w (unwind e [] (m.running.withFrame f) m.callers) w'
  | returns (v : Value) : Turn m w (leave (.returned v) m.callers) w
  /-- A method is entered; that is not too deep. -/
  | enters (f : Frame) (p : Program) (this definer : ObjectId) (method : String) (values : List Value)
      (w' : World) (hdepth : m.stack.length < w.session.runtime.maxStackDepth) :
      Turn m w (.running ⟨.start p this definer method (.nested m.running) values,
        m.running.withFrame f :: m.callers⟩) w'
  | faults : Turn m w (.halted .faulted) w

theorem respond_turn {f : Frame} (hprogram : f.program = m.running.frame.program)
    (hpc : f.pc = m.running.frame.pc + 1) (action : ScriptAction Value) (w : World) :
    Turn m w (serve.respond ⟨m.running.withFrame f, m.callers⟩ action w).1
      (serve.respond ⟨m.running.withFrame f, m.callers⟩ action w).2 := by
  simp only [serve.respond, bind, StateT.bind]
  rcases action.run w with ⟨e | v, w₁⟩
  · exact .raises e f w₁ hprogram hpc
  · exact .stays (f.push v) w₁

theorem serve_turn {f : Frame} (hprogram : f.program = m.running.frame.program)
    (hpc : f.pc = m.running.frame.pc + 1) (r : Request) (w : World) :
    Turn m w (serve ⟨m.running.withFrame f, m.callers⟩ r w).1
      (serve ⟨m.running.withFrame f, m.callers⟩ r w).2 := by
  cases r with
  | callMethod object name args =>
    simp only [serve, bind, StateT.bind]
    rcases hcall : (enterMethod (m.running.withFrame f) m.callers.length object name args).run w
      with ⟨e | callee, w₁⟩
    · exact .raises e f w₁ hprogram hpc
    · obtain ⟨hdepth, p, this, definer, method, values, rfl⟩ := enterMethod_opens hcall
      exact .enters f p this definer method values w₁ hdepth
  | _ => exact respond_turn hprogram hpc _ w

theorem step_turn (m : Machine) (w : World) : Turn m w (m.step w).1 (m.step w).2 := by
  obtain ⟨a, callers⟩ := m
  have hof := a.frame.step_of
  have hpast := a.frame.step_past
  simp only [step]
  cases hstep : a.frame.step with
  | next f => exact .stays f w
  | raise e f =>
    rw [hstep] at hof hpast
    exact .raises e f w hof hpast
  | «return» v => cases callers <;> exact .returns v
  | fault => exact .faults
  | ask r f =>
    rw [hstep] at hof hpast
    exact serve_turn (m := ⟨a, callers⟩) hof hpast r w

/-- A step leaves some of the innermost calls, or opens another one.  That is at its start, called by
the one that was running, and no deeper than the settings allow. -/
theorem step_running (h : m.step w = (.running m', w')) :
    Left m m' ∨
      ∃ p this definer method values f,
        m' = ⟨.start p this definer method (.nested m.running) values,
          m.running.withFrame f :: m.callers⟩ ∧
        m.stack.length < w.session.runtime.maxStackDepth := by
  have hturn := step_turn m w
  rw [h] at hturn
  generalize hp : Progress.running m' = progress at hturn
  cases hturn with
  | stays f =>
    cases hp
    exact .inl ⟨0, Nat.zero_lt_succ _, rfl⟩
  | raises e f =>
    obtain ⟨k, hk, hstack⟩ := unwind_running hp.symm
    refine .inl ⟨k, hk, hstack.trans ?_⟩
    cases k <;> rfl
  | returns v =>
    obtain ⟨a, callers⟩ := m
    cases callers with
    | nil => cases hp
    | cons caller callers =>
      cases hp
      exact .inl ⟨1, Nat.succ_lt_succ (Nat.zero_lt_succ _), rfl⟩
  | enters f p this definer method values _ hdepth =>
    cases hp
    exact .inr ⟨p, this, definer, method, values, f, rfl, hdepth⟩
  | faults => cases hp

/-- The trace of an error that nothing takes is the lines of all calls that are open when it is
raised. -/
theorem step_raised {x : Exception} (h : m.step w = (.halted (.raised x), w')) : x.trace = m.lines := by
  have hturn := step_turn m w
  rw [h] at hturn
  generalize hp : Progress.halted (.raised x) = progress at hturn
  cases hturn with
  | raises e f _ hprogram hpc =>
    -- The instruction that was carried out last is the one before the place that it left behind.
    have hline : (m.running.withFrame f).traceFrame = ⟨m.running.this, m.running.definer,
        m.running.method, m.running.frame.program.lineOf m.running.frame.pc⟩ := by
      rw [Activation.traceFrame, Activation.withFrame, Frame.line, hprogram, hpc,
        Nat.add_sub_cancel]
    rw [unwind_raised hp.symm, lines, ← hline]
    rfl
  | returns v =>
    obtain ⟨a, callers⟩ := m
    cases callers with
    | nil => cases hp
    | cons caller callers => cases hp
  | stays | enters | faults => cases hp

/-! ## Runs -/

/-- The open calls of a machine are those that began and did not end, and they are in order: each has
been called by the one below it, for the player of the outermost one, and there are not too many. -/
structure Orderly (player : ObjectId) (limit : Nat) (m : Machine) (opened : List Activation) : Prop where
  identities : m.stack.map Activation.identity = opened.map Activation.identity
  few : opened.length ≤ max 1 limit
  players : ∀ b ∈ opened, b.player = player
  called : opened.IsChain (Activation.CalledBy player)

namespace Orderly

variable {player : ObjectId} {limit : Nat} {opened : List Activation}

theorem length_eq (h : Orderly player limit m opened) : m.stack.length = opened.length := by
  rw [← List.length_map Activation.identity, h.identities, List.length_map]

/-- Calls that are left are forgotten. -/
theorem left (h : Orderly player limit m opened) (hleft : Left m m') :
    Orderly player limit m' (m'.tracked opened) := by
  obtain ⟨k, hk, hstack⟩ := hleft
  have hlength : m'.stack.length = opened.length - k := by
    rw [← List.length_map Activation.identity, hstack, List.length_map, List.length_drop, h.length_eq]
  -- Fewer calls are open than before, or as many, so only calls further in are forgotten.
  have htracked : m'.tracked opened = opened.drop k := by
    have hk' : k < opened.length := h.length_eq ▸ hk
    rw [tracked, if_neg (by omega), show opened.length - m'.stack.length = k by omega]
  rw [htracked]
  refine ⟨?_, ?_, fun b hb => h.players b (List.mem_of_mem_drop hb), h.called.drop k⟩
  · rw [hstack, List.map_drop, h.identities, List.map_drop]
  · rw [List.length_drop]
    exact Nat.le_trans (Nat.sub_le _ _) h.few

/-- The call that is running is who it was when it began. -/
theorem head (h : Orderly player limit m opened) :
    ∃ b rest, opened = b :: rest ∧ b.this = m.running.this ∧ b.player = m.running.player := by
  cases opened with
  | nil => cases h.identities
  | cons b rest =>
    have hhead := (List.cons.inj h.identities).1
    exact ⟨b, rest, rfl, (congrArg (·.1) hhead).symm, (congrArg (·.2.2.2) hhead).symm⟩

/-- The variables of a call by a method. -/
theorem calledBy_start (p : Program) (this definer : ObjectId) (method : String) (caller : Activation)
    (values : List Value) : Activation.CalledBy caller.player
      (.start p this definer method (.nested caller) values) caller := by
  -- The first six slots are those of the variables that every call is given.
  have henv (g : Nat) (hg : g < 6) :
      (Activation.initialEnv p.names.width this method (.nested caller) values)[g]? =
        ([Value.obj this, .obj caller.player, .obj caller.this, .str method, .list values, .str ""][g]?).map some := by
    rw [Activation.initialEnv, List.getElem?_toArray, List.getElem?_append_left hg, List.getElem?_map]
    rfl
  exact ⟨henv 2 (by decide), henv 1 (by decide)⟩

theorem entered (h : Orderly player limit m opened) {p : Program} {this definer : ObjectId}
    {method : String} {values : List Value} {f : Frame}
    (hm' : m' = ⟨.start p this definer method (.nested m.running) values,
      m.running.withFrame f :: m.callers⟩) (hdepth : m.stack.length < limit) :
    Orderly player limit m' (m'.tracked opened) := by
  have hlength : m'.stack.length = m.stack.length + 1 := by
    rw [hm']
    rfl
  have htracked : m'.tracked opened = m'.running :: opened := by
    rw [tracked, if_pos (by rw [hlength, h.length_eq]; exact Nat.lt_succ_self _)]
  rw [htracked]
  obtain ⟨b, rest, rfl, hthis, hplayer⟩ := h.head
  -- The new call is given who runs it, and that is still who it was when it began.
  have hcalled : Activation.CalledBy player m'.running b := by
    have hplayer' : m.running.player = player := hplayer ▸ h.players b List.mem_cons_self
    obtain ⟨hcaller, hfor⟩ := calledBy_start p this definer method m.running values
    rw [hm']
    exact ⟨hthis ▸ hcaller, hplayer' ▸ hfor⟩
  refine ⟨?_, ?_, ?_, .cons_cons hcalled h.called⟩
  · rw [List.map_cons, ← h.identities, hm']
    rfl
  · rw [List.length_cons, ← h.length_eq]
    exact Nat.le_trans hdepth (Nat.le_max_right 1 limit)
  · intro c hc
    rcases List.mem_cons.mp hc with rfl | hc
    · rw [hm']
      exact hplayer ▸ h.players b List.mem_cons_self
    · exact h.players c hc

end Orderly

/-- The open calls are in order all along a run.  Induction on the steps; the settings stay as they
are. -/
theorem Unfolds.orderly {a : Activation} {opened : List Activation} (h : Unfolds a w m w' opened) :
    w'.session.runtime = w.session.runtime ∧
      Orderly a.player w.session.runtime.maxStackDepth m opened := by
  induction h with
  | start =>
    refine ⟨rfl, rfl, Nat.le_max_left 1 _, fun b hb => ?_, .singleton a⟩
    rw [List.mem_singleton.mp hb]
  | @step m₁ m₂ w₁ w₂ opened _ hstep ih =>
    obtain ⟨hruntime, horderly⟩ := ih
    have hsame := World.step_runtime m₁ w₁
    rw [hstep] at hsame
    refine ⟨hsame.trans hruntime, ?_⟩
    rcases step_running hstep with hleft | ⟨p, this, definer, method, values, f, hm₂, hdepth⟩
    · exact horderly.left hleft
    · rw [hruntime] at hdepth
      exact horderly.entered hm₂ hdepth

theorem Reaches.trans {m₁ m₂ m₃ : Machine} {w₁ w₂ w₃ : World} (h : Reaches m₁ w₁ m₂ w₂)
    (h' : Reaches m₂ w₂ m₃ w₃) : Reaches m₁ w₁ m₃ w₃ := by
  induction h' with
  | start => exact h
  | step _ hstep ih => exact ih.step hstep

/-- A run that ends, ends with a step.  Induction on the fuel. -/
theorem Reaches.of_run {fuel : Nat} {o : Outcome} (h : run fuel m w = (some o, w')) :
    ∃ m₁ w₁, Reaches m w m₁ w₁ ∧ m₁.step w₁ = (.halted o, w') := by
  induction fuel generalizing m w with
  | zero => cases h
  | succ fuel ih =>
    rw [run_succ] at h
    rcases hstep : m.step w with ⟨m₁ | o', w₁⟩
    · rw [hstep] at h
      obtain ⟨m₂, w₂, hreaches, hlast⟩ := ih h
      exact ⟨m₂, w₂, (Reaches.start.step hstep).trans hreaches, hlast⟩
    · rw [hstep] at h
      cases h
      exact ⟨m, w, .start, hstep⟩

end Machine

end Lineage
