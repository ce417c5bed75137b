/-
  Lineage.Proofs.Machine.Frames

  What a frame does when nothing is wrong: jumps to labels that a program has, and
  variables that have a slot.  Whatever it does, it stays in its program.
-/
import Lineage.Machine.Frame
import Lineage.Proofs.Program.Layout

namespace Lineage

open Script (Name)

namespace Frame

variable {f : Frame}

/-- A jump leads to the target of its label. -/
theorem jump_target {l : Label} {j : Nat} (h : f.program.target l = some j) :
    f.jump l = .next { f with pc := j } := by
  obtain ⟨target, ht, rfl⟩ := Option.map_eq_some_iff.mp h
  simp only [jump, ht]

/-- A variable that has a slot can be set. -/
theorem bind_slot {name : Name} {v : Value} (h : name.slot.toNat < f.env.size) :
    f.bind name v = some { f with env := f.env.setIfInBounds name.slot.toNat (some v) } := by
  simp only [bind, h, if_true]

/-- Variables that have slots are set one after the other. -/
theorem bindAll_slots {bound : List (Name × Value)}
    (h : ∀ share ∈ bound, share.1.slot.toNat < f.env.size) :
    f.bindAll bound = some { f with
      env := bound.foldl (fun env share => env.setIfInBounds share.1.slot.toNat (some share.2))
        f.env } := by
  induction bound generalizing f with
  | nil => rfl
  | cons share rest ih =>
    obtain ⟨name, v⟩ := share
    have hname : name.slot.toNat < f.env.size := h _ List.mem_cons_self
    have hrest : ∀ other ∈ rest, other.1.slot.toNat <
        (f.env.setIfInBounds name.slot.toNat (some v)).size := by
      intro other hother
      rw [Array.size_setIfInBounds]
      exact h other (List.mem_cons_of_mem _ hother)
    simp only [bindAll, bind_slot hname]
    exact ih (f := { f with env := f.env.setIfInBounds name.slot.toNat (some v) }) hrest

theorem perform_pushLiteral (f : Frame) (l : Label) :
    f.perform (.pushLiteral l) = match f.program.literals[l.slot.toNat]? with
      | some v => .next (f.push v)
      | none => .fault := rfl

/-- A scattering assignment from a list deals its values. -/
theorem stepScatter_list {table : UInt16} {t : ScatterTable} {values rest : List Value}
    (ht : f.program.scatterTables[table.toNat]? = some t) (hstack : f.stack = .list values :: rest) :
    f.stepScatter table = match Scatter.distribute t values with
      | .error e => .raise e f
      | .ok shares =>
        match f.bindAll shares.bound with
        | some f => f.jump (shares.defaultDue.getD t.done)
        | none => .fault := by
  cases hdealt : Scatter.distribute t values with
  | error e => simp only [stepScatter, ht, hstack, hdealt]
  | ok shares =>
    cases hbound : f.bindAll shares.bound <;> simp only [stepScatter, ht, hstack, hdealt, hbound]

/-- Setting variables leaves their number as it is. -/
theorem foldl_set_size (bound : List (Name × Value)) (env : Array (Option Value)) :
    (bound.foldl (fun env share => env.setIfInBounds share.1.slot.toNat (some share.2)) env).size =
      env.size := by
  induction bound generalizing env with
  | nil => rfl
  | cons share rest ih => rw [List.foldl_cons, ih, Array.size_setIfInBounds]

end Frame

/-! ## Staying in a program -/

/-- The frames of a reply run a program. -/
def Reply.Of (p : Program) : Reply → Prop
  | .next f | .raise _ f | .ask _ f => f.program = p
  | .return _ | .fault => True

namespace Frame

theorem jump_of (f : Frame) (l : Label) : (f.jump l).Of f.program := by
  unfold jump
  split
  · rfl
  · trivial

theorem jumpUnless_of (f : Frame) (holds : Bool) (l : Label) :
    (f.jumpUnless holds l).Of f.program := by
  cases holds with
  | true => rfl
  | false => exact jump_of f l

theorem finishWith_of (f : Frame) (r : Except ScriptError Value) :
    (f.finishWith r).Of f.program := by
  cases r <;> rfl

theorem bind_program {f g : Frame} {name : Name} {v : Value} (h : f.bind name v = some g) :
    g.program = f.program := by
  unfold bind at h
  split at h
  · cases h
    rfl
  · cases h

theorem bindAll_program {f g : Frame} {bound : List (Name × Value)}
    (h : f.bindAll bound = some g) : g.program = f.program := by
  induction bound generalizing f with
  | nil => cases h; rfl
  | cons share rest ih =>
    unfold bindAll at h
    split at h
    · rename_i f' hf'
      exact (ih h).trans (bind_program hf')
    · cases h

theorem bind_of (f : Frame) (name : Name) (v : Value) :
    (match f.bind name v with
      | some f => Reply.next f
      | none => .fault).Of f.program := by
  split
  · rename_i g hg
    exact bind_program hg
  · trivial

theorem stepForList_of (f : Frame) (name : Name) (l : Label) :
    (f.stepForList name l).Of f.program := by
  unfold stepForList
  split
  · split
    · split
      · exact bind_of _ name _
      · exact jump_of _ l
    · rfl
  · trivial

theorem stepForRange_of (f : Frame) (name : Name) (l : Label) :
    (f.stepForRange name l).Of f.program := by
  unfold stepForRange
  split
  · split
    · split
      · exact jump_of _ l
      · exact bind_of _ name _
    · rfl
  · trivial

theorem stepScatter_of (f : Frame) (slot : UInt16) : (f.stepScatter slot).Of f.program := by
  unfold stepScatter
  split
  · split
    · split
      · rfl
      · split
        · rename_i g hg
          rw [← bindAll_program hg]
          exact jump_of g _
        · trivial
    · rfl
  · trivial

theorem perform_of (f : Frame) (op : Op) : (f.perform op).Of f.program := by
  unfold perform
  split
  all_goals first
    | rfl
    | trivial
    | exact jump_of _ _
    | exact jumpUnless_of _ _ _
    | exact finishWith_of _ _
    | exact bind_of _ _ _
    | exact stepForList_of _ _ _
    | exact stepForRange_of _ _ _
    | exact stepScatter_of _ _
    | skip
  -- What is left looks at an operand or at the open scopes before it goes on.
  all_goals split
  all_goals first
    | rfl
    | trivial
    | exact jump_of _ _
    | exact finishWith_of _ _

theorem step_of (f : Frame) : f.step.Of f.program := by
  unfold step
  split
  · trivial
  · exact perform_of _ _

theorem handler_program {f g : Frame} {code : ErrorCode} {scopes : List Scope} {l : Label}
    (h : f.handler? code scopes = some (l, g)) : g.program = f.program := by
  induction scopes generalizing f with
  | nil => cases h
  | cons scope scopes ih =>
    simp only [handler?] at h
    split at h
    · cases h
      rfl
    · exact ih (f := { f with scopes, stack := cut scope.height f.stack }) h

end Frame

end Lineage
