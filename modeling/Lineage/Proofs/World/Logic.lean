/-
  Lineage.Proofs.World.Logic

  Reasoning about operations on worlds, step by step.

  `Holds P x Q`: from a world with `P`, the operation `x` comes to a value and a world
  with `Q`.  `Attempts P x Q E` is the same of an operation that may fail; what it
  leaves behind then has `E`.  There is a rule for every way in which operations are put
  together.  Most operations keep some invariant whatever they are given (`Keeps`,
  `Guards`).
-/
import Lineage.Builtin.Call

namespace Lineage

variable {α β ε : Type}

/-- From a world with `P`, an operation comes to a value and a world with `Q`. -/
def Holds (P : World → Prop) (x : StateM World α) (Q : α → World → Prop) : Prop :=
  ∀ w, P w → Q (x w).1 (x w).2

/-- From a world with `P`, an operation comes to a value and a world with `Q`, or fails in a world
with `E`. -/
def Attempts (P : World → Prop) (x : ExceptT ε (StateM World) α) (Q : α → World → Prop)
    (E : World → Prop) : Prop :=
  Holds P x.run fun r w => match r with
    | .ok a => Q a w
    | .error _ => E w

/-- An operation keeps an invariant. -/
abbrev Keeps (I : World → Prop) (x : StateM World α) : Prop := Holds I x fun _ => I

/-- An operation that may fail keeps an invariant, also when it fails. -/
abbrev Guards (I : World → Prop) (x : ExceptT ε (StateM World) α) : Prop :=
  Attempts I x (fun _ => I) I

namespace World

theorem run_bind (x : ExceptT ε (StateM World) α) (f : α → ExceptT ε (StateM World) β) (w : World) :
    (x >>= f).run w = match x.run w with
      | (.ok a, w₁) => (f a).run w₁
      | (.error e, w₁) => (.error e, w₁) := by
  simp only [ExceptT.run, Bind.bind, ExceptT.bind, ExceptT.mk, StateT.bind, ExceptT.bindCont]
  rcases x w with ⟨_ | a, w₁⟩ <;> rfl

/-- What the parts of an operation that succeeds have come to. -/
theorem run_bind_ok {x : ExceptT ε (StateM World) α} {f : α → ExceptT ε (StateM World) β}
    {w w' : World} {b : β} (h : (x >>= f).run w = (.ok b, w')) :
    ∃ a w₁, x.run w = (.ok a, w₁) ∧ (f a).run w₁ = (.ok b, w') := by
  rw [run_bind] at h
  rcases hx : x.run w with ⟨e | a, w₁⟩
  · rw [hx] at h
    cases h
  · rw [hx] at h
    exact ⟨a, w₁, rfl, h⟩

theorem run_lift_bind (x : StateM World α) (f : α → ExceptT ε (StateM World) β) (w : World) :
    ((liftM x : ExceptT ε (StateM World) α) >>= f).run w = (f (x w).1).run (x w).2 := rfl

theorem run_get_bind (f : World → ExceptT ε (StateM World) β) (w : World) :
    (get >>= f : ExceptT ε (StateM World) β).run w = (f w).run w := rfl

/-- An operation on the store, as part of a world. -/
theorem access_run (op : StoreOp Store α) (w : World) : (access op).run w =
    ((op w.store).1.mapError RuntimeError.persistence, { w with store := (op w.store).2 }) := by
  have honStore : onStore op w = ((op w.store).1, { w with store := (op w.store).2 }) := rfl
  rw [access, run_lift_bind, honStore]
  cases (op w.store).1 <;> rfl

theorem run_tryCatch (x : ExceptT ε (StateM World) α) (handle : ε → ExceptT ε (StateM World) α)
    (w : World) : (tryCatch x handle).run w = match x.run w with
      | (.ok a, w₁) => (.ok a, w₁)
      | (.error e, w₁) => (handle e).run w₁ := by
  simp only [tryCatch, tryCatchThe, MonadExceptOf.tryCatch, ExceptT.tryCatch, ExceptT.run,
    ExceptT.mk, Bind.bind, StateT.bind]
  rcases x w with ⟨_ | a, w₁⟩ <;> rfl

end World

open World (run_bind run_tryCatch)

variable {P P' I E E' : World → Prop} {Q Q' : α → World → Prop} {R : β → World → Prop}

namespace Holds

variable {x : StateM World α} {f : α → StateM World β}

theorem bind (hx : Holds P x Q) (hf : ∀ a, Holds (Q a) (f a) R) : Holds P (x >>= f) R :=
  fun w hw => hf _ _ (hx w hw)

theorem pure (a : α) (h : ∀ w, P w → Q a w) : Holds P (Pure.pure a) Q := h

theorem mono (hx : Holds P x Q) (h : ∀ a w, Q a w → Q' a w) : Holds P x Q' :=
  fun w hw => h _ _ (hx w hw)

theorem weaken (hx : Holds P x Q) (h : ∀ w, P' w → P w) : Holds P' x Q :=
  fun w hw => hx w (h w hw)

/-- The world is looked at and left alone. -/
theorem get : Holds P (MonadState.get : StateM World World) fun a w => a = w ∧ P w :=
  fun _ hw => ⟨rfl, hw⟩

theorem modify {change : World → World} (h : ∀ w, P w → I (change w)) :
    Holds P (modify change) fun _ => I := h

end Holds

namespace Attempts

variable {x : ExceptT ε (StateM World) α} {f : α → ExceptT ε (StateM World) β}

theorem bind (hx : Attempts P x Q E) (hf : ∀ a, Attempts (Q a) (f a) R E) :
    Attempts P (x >>= f) R E := by
  intro w hw
  have hx := hx w hw
  rw [run_bind]
  rcases hw₁ : x.run w with ⟨e | a, w₁⟩
  · rw [hw₁] at hx
    exact hx
  · rw [hw₁] at hx
    exact hf a w₁ hx

theorem pure (a : α) (h : ∀ w, P w → Q a w) :
    Attempts P (Pure.pure a : ExceptT ε (StateM World) α) Q E := h

theorem throw (e : ε) (h : ∀ w, P w → E w) :
    Attempts P (throw e : ExceptT ε (StateM World) α) Q E := h

/-- Nothing is done after a failure. -/
theorem thrown (e : ε) (h : ∀ w, P w → E w) :
    Attempts P ((MonadExcept.throw e : ExceptT ε (StateM World) α) >>= f) R E := h

/-- An operation that does not fail, among operations that may. -/
theorem lift {x : StateM World α} (hx : Holds P x Q) :
    Attempts P (liftM x : ExceptT ε (StateM World) α) Q E := hx

theorem get : Attempts P (MonadState.get : ExceptT ε (StateM World) World)
    (fun a w => a = w ∧ P w) E := Holds.get

theorem mono (hx : Attempts P x Q E) (h : ∀ a w, Q a w → Q' a w) : Attempts P x Q' E := by
  intro w hw
  have hx := hx w hw
  rcases hw₁ : x.run w with ⟨e | a, w₁⟩
  · rw [hw₁] at hx
    exact hx
  · rw [hw₁] at hx
    exact h a w₁ hx

theorem weaken (hx : Attempts P x Q E) (h : ∀ w, P' w → P w) : Attempts P' x Q E :=
  fun w hw => hx w (h w hw)

/-- One world after the other. -/
theorem at_each (h : ∀ w, P w → Attempts (fun w' => w' = w) x Q E) : Attempts P x Q E :=
  fun w hw => h w hw w rfl

theorem fails (hx : Attempts P x Q E) (h : ∀ w, E w → E' w) : Attempts P x Q E' := by
  intro w hw
  have hx := hx w hw
  rcases hw₁ : x.run w with ⟨e | a, w₁⟩
  · rw [hw₁] at hx
    exact h w₁ hx
  · rw [hw₁] at hx
    exact hx

/-- An operation whose failure is looked at. -/
theorem run (hx : Attempts P x Q E) : Holds P x.run fun r w => match r with
    | .ok a => Q a w
    | .error _ => E w := hx

theorem recover {handle : ε → ExceptT ε (StateM World) α} (hx : Attempts P x Q P')
    (hhandle : ∀ e, Attempts P' (handle e) Q E) : Attempts P (tryCatch x handle) Q E := by
  intro w hw
  have hx := hx w hw
  rw [run_tryCatch]
  rcases hw₁ : x.run w with ⟨e | a, w₁⟩
  · rw [hw₁] at hx
    exact hhandle e w₁ hx
  · rw [hw₁] at hx
    exact hx

/-- What a script makes of an operation of the runtime. -/
theorem forScript {x : Action α} (hx : Attempts P x Q E) : Attempts P x.forScript Q E := by
  refine bind (lift hx.run) fun r => ?_
  cases r with
  | ok a => exact pure a fun _ hw => hw
  | error e => exact throw _ fun _ hw => hw

end Attempts

/-- Reading a value off the world. -/
theorem Holds.reads {a : World → α} (h : ∀ w, P w → Q (a w) w) :
    Holds P (MonadState.get >>= fun w => Pure.pure (a w)) Q := h

end Lineage
