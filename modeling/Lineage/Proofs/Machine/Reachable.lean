/-
  Lineage.Proofs.Machine.Reachable

  Every state that a machine comes to.

  Calls enter and leave the machine while it runs, each with a program of its own.
  Whatever shapes check a program, all calls of it that the machine has are as those
  shapes say (`Machine.Sound`): the running one is settled, and those that wait are
  settled as soon as they are answered.  A step preserves this, and so does a run.
-/
import Lineage.Machine.Basic
import Lineage.Proofs.Machine.Safety
import Lineage.Proofs.World.Logic

namespace Lineage

/-- The states that a machine comes to from a state. -/
inductive Machine.Reaches (m : Machine) (w : World) : Machine → World → Prop
  | start : Reaches m w m w
  | step {m₁ m₂ : Machine} {w₁ w₂ : World} :
      Reaches m w m₁ w₁ → m₁.step w₁ = (.running m₂, w₂) → Reaches m w m₂ w₂

/-- The frame after `n` instructions that ask nothing of the world. -/
def Frame.after (f : Frame) : Nat → Option Frame
  | 0 => some f
  | n + 1 => match f.after n with
    | none => none
    | some g => match g.step with
      | .next g => some g
      | _ => none

/-- What a frame comes to on its own, a machine comes to in the same world. -/
theorem Machine.Reaches.of_after {a : Activation} (callers : List Activation) (w : World) {n : Nat}
    {g : Frame} (h : a.frame.after n = some g) :
    g.program = a.frame.program ∧
      Machine.Reaches ⟨a, callers⟩ w ⟨{ a with frame := g }, callers⟩ w := by
  induction n generalizing g with
  | zero =>
    cases h
    exact ⟨rfl, .start⟩
  | succ n ih =>
    simp only [Frame.after] at h
    cases hbefore : a.frame.after n with
    | none => rw [hbefore] at h; cases h
    | some f =>
      rw [hbefore] at h
      obtain ⟨hprogram, hreaches⟩ := ih hbefore
      have hof := f.step_of
      cases hstep : f.step with
      | next f' =>
        simp only [hstep] at h hof
        cases h
        refine ⟨Eq.trans (b := f.program) hof hprogram, .step hreaches ?_⟩
        simp only [Machine.step, hstep]
        rfl
      | _ => simp only [hstep] at h; cases h

/-- Every call is as any shapes say that check its program. -/
structure Machine.Sound (m : Machine) : Prop where
  running : ∀ S, m.running.frame.program.Checked S → m.running.frame.Settled S
  callers : ∀ a ∈ m.callers, ∀ S, a.frame.program.Checked S → a.frame.Awaiting S

/-- A machine that still runs is sound. -/
def Progress.Sound : Progress → Prop
  | .running m => m.Sound
  | .halted _ => True

namespace Machine

/-- A call has a place for every variable of its program. -/
theorem width_le_start (p : Program) (this definer : ObjectId) (method : String)
    (context : CallContext) (args : List Value) :
    p.names.width ≤ (Activation.start p this definer method context args).frame.env.size := by
  simp only [Activation.start, Activation.initialEnv, List.size_toArray, List.length_append,
    List.length_map, List.length_replicate]
  omega

/-- The first frame of a call has the first shape of its program. -/
theorem start_settled {p : Program} {this definer : ObjectId} {method : String}
    {context : CallContext} {args : List Value} {S : List Shape} (hp : p.Checked S) :
    (Activation.start p this definer method context args).frame.Settled S :=
  ⟨_, hp.start, rfl, trivial, fun _ hc => (nomatch hc), width_le_start p this definer method context args⟩

/-- The machine before anything has run is sound. -/
theorem start_sound (p : Program) (this definer : ObjectId) (method : String)
    (context : CallContext) (args : List Value) :
    Machine.Sound ⟨.start p this definer method context args, []⟩ where
  running _ hp := start_settled hp
  callers _ ha := nomatch ha

variable {a : Activation} {callers : List Activation}

/-- A handler of a guarded call goes on in a settled frame. -/
theorem catchIn_sound {e : ScriptError} {progress : Progress}
    (hguarded : ∀ S, a.frame.program.Checked S → ∃ heights, a.frame.Guarded S heights)
    (hcallers : ∀ a ∈ callers, ∀ S, a.frame.program.Checked S → a.frame.Awaiting S)
    (h : catchIn e a callers = some progress) : progress.Sound := by
  unfold catchIn at h
  split at h
  · cases h
  · rename_i l f hf
    split at h
    · rename_i g hg
      cases h
      have hof := Frame.jump_of (f.push (.err e)) l
      rw [hg] at hof
      have hprogram : g.program = a.frame.program :=
        Eq.trans (b := f.program) hof (Frame.handler_program hf)
      refine ⟨fun S hS => ?_, hcallers⟩
      rw [hprogram] at hS
      obtain ⟨heights, hscopes, habove, henv⟩ := hguarded S hS
      obtain ⟨g', hjump, -, hsettled⟩ := Frame.handler_settled (e := .err e) hf hscopes habove henv
      rw [hg] at hjump
      cases hjump
      exact hsettled
    · cases h
      trivial

/-- An error leaves the machine sound, wherever it is handled. -/
theorem unwind_sound {e : ScriptError} {trace : List TraceFrame}
    (hguarded : ∀ S, a.frame.program.Checked S → ∃ heights, a.frame.Guarded S heights)
    (hcallers : ∀ a ∈ callers, ∀ S, a.frame.program.Checked S → a.frame.Awaiting S) :
    (unwind e trace a callers).Sound := by
  induction callers generalizing a trace with
  | nil =>
    simp only [unwind]
    split
    · exact catchIn_sound hguarded hcallers ‹_›
    · trivial
  | cons caller callers ih =>
    simp only [unwind]
    split
    · exact catchIn_sound hguarded hcallers ‹_›
    · exact ih (fun S hS => (hcallers caller List.mem_cons_self S hS).guarded)
        fun other hother => hcallers other (List.mem_cons_of_mem _ hother)

/-- The operands of a request are looked at without the world. -/
theorem objectOperand_ok {v : Value} {id : ObjectId} {w w' : World}
    (h : (objectOperand v).run w = (.ok id, w')) : w' = w := by
  cases v <;> cases h
  rfl

theorem textOperand_ok {what : String} {v : Value} {s : String} {w w' : World}
    (h : (textOperand what v).run w = (.ok s, w')) : w' = w := by
  cases v <;> cases h
  rfl

/-- A method that is entered is at its start, called by the running call; and it is not too deep. -/
theorem enterMethod_opens {depth : Nat} {object name args : Value} {w w' : World}
    {callee : Activation} (h : (enterMethod a depth object name args).run w = (.ok callee, w')) :
    depth + 1 < w.session.runtime.maxStackDepth ∧
      ∃ p this definer method values, callee = .start p this definer method (.nested a) values := by
  unfold enterMethod at h
  obtain ⟨id, w₁, hobject, h⟩ := World.run_bind_ok h
  have hw₁ : w₁ = w := objectOperand_ok hobject
  obtain ⟨method, w₂, hname, h⟩ := World.run_bind_ok h
  have hw₂ : w₂ = w₁ := textOperand_ok hname
  cases args with
  | list values =>
    obtain ⟨world, w₃, hworld, h⟩ := World.run_bind_ok h
    cases hworld
    split at h
    · cases h
    · rename_i hdepth
      obtain ⟨target, w₄, -, h⟩ := World.run_bind_ok h
      obtain ⟨found, w₅, -, h⟩ := World.run_bind_ok h
      cases found with
      | none => cases h
      | some owner =>
        obtain ⟨p, w₆, -, h⟩ := World.run_bind_ok h
        cases h
        rw [hw₂, hw₁] at hdepth
        exact ⟨Nat.lt_of_not_le hdepth, p, id, owner.1, method, values, rfl⟩
  | _ => cases h

section

variable (hawaiting : ∀ S, a.frame.program.Checked S → a.frame.Awaiting S)
  (hcallers : ∀ a ∈ callers, ∀ S, a.frame.program.Checked S → a.frame.Awaiting S)
include hawaiting hcallers

/-- An answer from the world, or an error. -/
theorem respond_sound (action : ScriptAction Value) (w : World) :
    (serve.respond ⟨a, callers⟩ action w).1.Sound := by
  simp only [serve.respond, bind, StateT.bind]
  rcases action.run w with ⟨_ | v, w₁⟩
  · exact unwind_sound (fun S hS => (hawaiting S hS).guarded) hcallers
  · exact ⟨fun S hS => (hawaiting S hS).answer v, hcallers⟩

/-- Serving a request leaves the machine sound. -/
theorem serve_sound (r : Request) (w : World) : (serve ⟨a, callers⟩ r w).1.Sound := by
  cases r with
  | callMethod object name args =>
    simp only [serve, bind, StateT.bind]
    rcases hcall : (enterMethod a callers.length object name args).run w with ⟨_ | callee, w₁⟩
    · exact unwind_sound (fun S hS => (hawaiting S hS).guarded) hcallers
    · obtain ⟨-, p, this, definer, method, values, rfl⟩ := enterMethod_opens hcall
      refine ⟨fun S hS => start_settled hS, ?_⟩
      intro other hother
      rcases List.mem_cons.mp hother with rfl | hother
      · exact hawaiting
      · exact hcallers other hother
  | _ => exact respond_sound hawaiting hcallers _ w

end

/-- A step of a sound machine leaves it sound. -/
theorem step_sound {m : Machine} (hm : m.Sound) (w : World) : (m.step w).1.Sound := by
  obtain ⟨a, callers⟩ := m
  have hof := a.frame.step_of
  have hgood {S : List Shape} (hS : a.frame.program.Checked S) :
      a.frame.step.Good a.frame.program S := Frame.step_good hS (hm.running S hS)
  simp only [step]
  cases hstep : a.frame.step with
  | next f =>
    rw [hstep] at hof hgood
    refine ⟨fun S hS => ?_, hm.callers⟩
    rw [show f.program = a.frame.program from hof] at hS
    exact (hgood hS).2
  | raise e f =>
    rw [hstep] at hof hgood
    refine unwind_sound (fun S hS => ?_) hm.callers
    rw [show f.program = a.frame.program from hof] at hS
    exact (hgood hS).2
  | «return» v =>
    cases callers with
    | nil => trivial
    | cons caller callers =>
      exact ⟨fun S hS => (hm.callers caller List.mem_cons_self S hS).answer v,
        fun other hother => hm.callers other (List.mem_cons_of_mem _ hother)⟩
  | ask r f =>
    rw [hstep] at hof hgood
    refine serve_sound (fun S hS => ?_) hm.callers r w
    rw [show f.program = a.frame.program from hof] at hS
    exact (hgood hS).2
  | fault => trivial

/-! ## No faults -/

/-- A call of a checked program in which errors find only handlers that start in the right
shape. -/
def Covered (a : Activation) : Prop :=
  ∃ S heights, a.frame.program.Checked S ∧ a.frame.Guarded S heights

theorem catchIn_ne_faulted {e : ScriptError} (ha : Covered a) :
    catchIn e a callers ≠ some (.halted .faulted) := by
  obtain ⟨S, heights, -, hscopes, habove, henv⟩ := ha
  intro h
  unfold catchIn at h
  split at h
  · cases h
  · rename_i l f hf
    obtain ⟨g, hjump, -, -⟩ := Frame.handler_settled (e := .err e) hf hscopes habove henv
    rw [hjump] at h
    cases h

theorem unwind_ne_faulted {e : ScriptError} {trace : List TraceFrame} (ha : Covered a)
    (hcallers : ∀ a ∈ callers, Covered a) : unwind e trace a callers ≠ .halted .faulted := by
  induction callers generalizing a trace with
  | nil =>
    simp only [unwind]
    split
    · rename_i progress hcatch
      rintro rfl
      exact catchIn_ne_faulted ha hcatch
    · intro h
      cases h
  | cons caller callers ih =>
    simp only [unwind]
    split
    · rename_i progress hcatch
      rintro rfl
      exact catchIn_ne_faulted ha hcatch
    · exact ih (hcallers caller List.mem_cons_self)
        fun other hother => hcallers other (List.mem_cons_of_mem _ hother)

theorem serve_ne_faulted (ha : Covered a) (hcallers : ∀ a ∈ callers, Covered a) (r : Request)
    (w : World) : (serve ⟨a, callers⟩ r w).1 ≠ .halted .faulted := by
  have hrespond (action : ScriptAction Value) :
      (serve.respond ⟨a, callers⟩ action w).1 ≠ .halted .faulted := by
    simp only [serve.respond, bind, StateT.bind]
    rcases action.run w with ⟨_ | v, w₁⟩
    · exact unwind_ne_faulted ha hcallers
    · intro h
      cases h
  cases r with
  | callMethod object name args =>
    simp only [serve, bind, StateT.bind]
    rcases (enterMethod a callers.length object name args).run w with ⟨_ | callee, w₁⟩
    · exact unwind_ne_faulted ha hcallers
    · intro h
      cases h
  | _ => exact hrespond _

/-- A sound machine does not fault as long as the programs of all its calls are checked. -/
theorem step_ne_faulted {m : Machine} (hm : m.Sound)
    (hchecked : ∀ a ∈ m.running :: m.callers, ∃ S, a.frame.program.Checked S) (w : World) :
    (m.step w).1 ≠ .halted .faulted := by
  obtain ⟨a, callers⟩ := m
  obtain ⟨S, hS⟩ := hchecked a List.mem_cons_self
  have hcallers : ∀ a ∈ callers, Covered a := by
    intro other hother
    obtain ⟨S', hS'⟩ := hchecked other (List.mem_cons_of_mem _ hother)
    obtain ⟨heights, hguarded⟩ := (hm.callers other hother S' hS').guarded
    exact ⟨S', heights, hS', hguarded⟩
  have hof := a.frame.step_of
  have hgood := Frame.step_good hS (hm.running S hS)
  simp only [step]
  cases hstep : a.frame.step with
  | next f => intro h; cases h
  | raise e f =>
    rw [hstep] at hof hgood
    obtain ⟨hprogram, heights, hguarded⟩ := hgood
    exact unwind_ne_faulted ⟨S, heights, (show f.program = _ from hof) ▸ hS, hguarded⟩ hcallers
  | «return» v =>
    cases callers with
    | nil => intro h; cases h
    | cons caller callers => intro h; cases h
  | ask r f =>
    rw [hstep] at hof hgood
    obtain ⟨hprogram, hawaiting⟩ := hgood
    obtain ⟨heights, hguarded⟩ := hawaiting.guarded
    exact serve_ne_faulted ⟨S, heights, (show f.program = _ from hof) ▸ hS, hguarded⟩ hcallers r w
  | fault =>
    rw [hstep] at hgood
    exact hgood.elim

/-- A machine is sound wherever it comes to. -/
theorem Reaches.sound {m m' : Machine} {w w' : World} (h : m.Reaches w m' w') (hm : m.Sound) :
    m'.Sound := by
  induction h with
  | start => exact hm
  | @step m₁ m₂ w₁ w₂ _ hstep ih =>
    have hsound := step_sound ih w₁
    rw [hstep] at hsound
    exact hsound

end Machine

end Lineage
