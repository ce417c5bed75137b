/-
  Lineage.Proofs.World.Lockstep

  Scripts that run in two worlds side by side.

  `Twins P x y Q`: from worlds that `P` relates, the operations `x` and `y` come to values
  and worlds that `Q` relates.  `Matches` is the same of operations that may fail: either
  both succeed, or both fail alike.  The rules are those for one world (`Holds`,
  `Attempts`), of which operations that are twins of themselves are the case in which the
  two worlds are one (`Twins.diagonal`).

  What scripts do in the world they do through a few operations of the runtime.  If none
  of these can tell worlds that are related from each other (`Lockstep`), then no script
  can: run in both, it comes to the same in each, and leaves them related
  (`Lockstep.run`).  With one world on both sides this says what scripts keep of a world.

  A script may create an object with every step; the relation may depend on how many
  objects can still be created.  The parents that scripts name to `chparent` may be
  restricted (`Machine.Keeping`).
-/
import Lineage.Machine.Call
import Lineage.Proofs.World.Logic

namespace Lineage

open World (run_bind run_tryCatch)

variable {α β γ δ ε : Type}

/-- From worlds with `P`, two operations come to values and worlds with `Q`. -/
def Twins (P : World → World → Prop) (x : StateM World α) (y : StateM World β)
    (Q : α → β → World → World → Prop) : Prop :=
  ∀ w w', P w w' → Q (x w).1 (y w').1 (x w).2 (y w').2

/-- Values and worlds with `Q`, or the same failure and worlds with `E`. -/
def Outcomes (Q : α → β → World → World → Prop) (E : World → World → Prop) :
    Except ε α → Except ε β → World → World → Prop
  | .ok a, .ok b, w, w' => Q a b w w'
  | .error e, .error e', w, w' => e = e' ∧ E w w'
  | _, _, _, _ => False

/-- From worlds with `P`, two operations come to values and worlds with `Q`, or fail alike in worlds
with `E`. -/
def Matches (P : World → World → Prop) (x : ExceptT ε (StateM World) α)
    (y : ExceptT ε (StateM World) β) (Q : α → β → World → World → Prop) (E : World → World → Prop) :
    Prop :=
  Twins P x.run y.run (Outcomes Q E)

/-- The same value, and worlds with `R`. -/
def Equally (R : World → World → Prop) (a b : α) (w w' : World) : Prop := a = b ∧ R w w'

/-- From worlds with `R`, one operation comes to the same value or failure in both, and to worlds
with `R`. -/
abbrev Agree (R : World → World → Prop) (x : ExceptT ε (StateM World) α) : Prop :=
  Matches R x x (Equally R) R

variable {P P' R E E' : World → World → Prop}

namespace Twins

variable {x : StateM World α} {y : StateM World β} {f : α → StateM World γ} {g : β → StateM World δ}
  {Q Q' : α → β → World → World → Prop} {S : γ → δ → World → World → Prop}

theorem bind (hx : Twins P x y Q) (hf : ∀ a b, Twins (Q a b) (f a) (g b) S) :
    Twins P (x >>= f) (y >>= g) S :=
  fun w w' hw => hf _ _ _ _ (hx w w' hw)

theorem pure {a : α} {b : β} (h : ∀ w w', P w w' → Q a b w w') :
    Twins P (Pure.pure a) (Pure.pure b) Q := h

theorem mono (hx : Twins P x y Q) (h : ∀ a b w w', Q a b w w' → Q' a b w w') : Twins P x y Q' :=
  fun w w' hw => h _ _ _ _ (hx w w' hw)

theorem weaken (hx : Twins P x y Q) (h : ∀ w w', P' w w' → P w w') : Twins P' x y Q :=
  fun w w' hw => hx w w' (h w w' hw)

/-- The worlds are looked at and left alone. -/
theorem get : Twins P (MonadState.get : StateM World World) (MonadState.get : StateM World World)
    fun a b w w' => (a = w ∧ b = w') ∧ P w w' :=
  fun _ _ hw => ⟨⟨rfl, rfl⟩, hw⟩

/-- What comes of an operation on one world comes of it twice. -/
theorem diagonal {I : World → Prop} {J : α → World → Prop} (hx : Holds I x J) :
    Twins (fun w w' => w = w' ∧ I w) x x fun a b w w' => (a = b ∧ w = w') ∧ J a w := by
  rintro w _ ⟨rfl, hw⟩
  exact ⟨⟨rfl, rfl⟩, hx w hw⟩

end Twins

namespace Matches

variable {x : ExceptT ε (StateM World) α} {y : ExceptT ε (StateM World) β}
  {f : α → ExceptT ε (StateM World) γ} {g : β → ExceptT ε (StateM World) δ}
  {Q Q' : α → β → World → World → Prop} {S : γ → δ → World → World → Prop}

theorem bind (hx : Matches P x y Q E) (hf : ∀ a b, Matches (Q a b) (f a) (g b) S E) :
    Matches P (x >>= f) (y >>= g) S E := by
  intro w w' hw
  have hx := hx w w' hw
  rw [run_bind, run_bind]
  rcases hw₁ : x.run w with ⟨e | a, w₁⟩
  · rcases hw₂ : y.run w' with ⟨e' | b, w₂⟩
    · rw [hw₁, hw₂] at hx
      exact hx
    · rw [hw₁, hw₂] at hx
      exact hx.elim
  · rcases hw₂ : y.run w' with ⟨e' | b, w₂⟩
    · rw [hw₁, hw₂] at hx
      exact hx.elim
    · rw [hw₁, hw₂] at hx
      exact hf a b w₁ w₂ hx

theorem pure {a : α} {b : β} (h : ∀ w w', P w w' → Q a b w w') :
    Matches P (Pure.pure a : ExceptT ε (StateM World) α) (Pure.pure b) Q E := h

theorem throw (e : ε) (h : ∀ w w', P w w' → E w w') :
    Matches P (throw e : ExceptT ε (StateM World) α) (throw e : ExceptT ε (StateM World) β) Q E :=
  fun w w' hw => ⟨rfl, h w w' hw⟩

/-- Nothing is done after a failure. -/
theorem thrown (e : ε) (h : ∀ w w', P w w' → E w w') :
    Matches P ((MonadExcept.throw e : ExceptT ε (StateM World) α) >>= f)
      ((MonadExcept.throw e : ExceptT ε (StateM World) β) >>= g) S E :=
  fun w w' hw => ⟨rfl, h w w' hw⟩

/-- Operations that do not fail, among operations that may. -/
theorem lift {x : StateM World α} {y : StateM World β} (hx : Twins P x y Q) :
    Matches P (liftM x : ExceptT ε (StateM World) α) (liftM y : ExceptT ε (StateM World) β) Q E := hx

theorem get : Matches P (MonadState.get : ExceptT ε (StateM World) World)
    (MonadState.get : ExceptT ε (StateM World) World)
    (fun a b w w' => (a = w ∧ b = w') ∧ P w w') E := Twins.get

theorem impl (hx : Matches P x y Q E) (hP : ∀ w w', P' w w' → P w w')
    (hQ : ∀ a b w w', Q a b w w' → Q' a b w w') (hE : ∀ w w', E w w' → E' w w') :
    Matches P' x y Q' E' := by
  intro w w' hw
  have hx := hx w w' (hP w w' hw)
  rcases hw₁ : x.run w with ⟨e | a, w₁⟩
  · rcases hw₂ : y.run w' with ⟨e' | b, w₂⟩
    · rw [hw₁, hw₂] at hx
      exact ⟨hx.1, hE _ _ hx.2⟩
    · rw [hw₁, hw₂] at hx
      exact hx.elim
  · rcases hw₂ : y.run w' with ⟨e' | b, w₂⟩
    · rw [hw₁, hw₂] at hx
      exact hx.elim
    · rw [hw₁, hw₂] at hx
      exact hQ a b _ _ hx

theorem mono (hx : Matches P x y Q E) (h : ∀ a b w w', Q a b w w' → Q' a b w w') :
    Matches P x y Q' E := hx.impl (fun _ _ hw => hw) h fun _ _ hw => hw

theorem weaken (hx : Matches P x y Q E) (h : ∀ w w', P' w w' → P w w') : Matches P' x y Q E :=
  hx.impl h (fun _ _ _ _ hw => hw) fun _ _ hw => hw

/-- What is known of all the worlds that are related may be assumed. -/
theorem assume {C : Prop} (hC : ∀ w w', P w w' → C) (hx : C → Matches P x y Q E) :
    Matches P x y Q E :=
  fun w w' hw => hx (hC w w' hw) w w' hw

/-- Operations whose failure is looked at. -/
theorem run (hx : Matches P x y Q E) : Twins P x.run y.run (Outcomes Q E) := hx

theorem recover {handle handle' : ε → ExceptT ε (StateM World) α} {x y : ExceptT ε (StateM World) α}
    {Q : α → α → World → World → Prop} (hx : Matches P x y Q P')
    (hhandle : ∀ e, Matches P' (handle e) (handle' e) Q E) :
    Matches P (tryCatch x handle) (tryCatch y handle') Q E := by
  intro w w' hw
  have hx := hx w w' hw
  rw [run_tryCatch, run_tryCatch]
  rcases hw₁ : x.run w with ⟨e | a, w₁⟩
  · rcases hw₂ : y.run w' with ⟨e' | b, w₂⟩
    · rw [hw₁, hw₂] at hx
      obtain ⟨rfl, hE⟩ := hx
      exact hhandle e w₁ w₂ hE
    · rw [hw₁, hw₂] at hx
      exact hx.elim
  · rcases hw₂ : y.run w' with ⟨e' | b, w₂⟩
    · rw [hw₁, hw₂] at hx
      exact hx.elim
    · rw [hw₁, hw₂] at hx
      exact hx

/-- What a script makes of operations of the runtime. -/
theorem forScript {x : Action α} {y : Action β} {Q : α → β → World → World → Prop}
    (hx : Matches P x y Q E) : Matches P x.forScript y.forScript Q E := by
  refine bind (lift hx.run) fun r r' => ?_
  cases r with
  | ok a =>
    cases r' with
    | ok b => exact pure fun _ _ hw => hw
    | error e' => exact fun _ _ hw => hw.elim
  | error e =>
    cases r' with
    | ok b => exact fun _ _ hw => hw.elim
    | error e' =>
      rintro w w' ⟨rfl, hE⟩
      exact ⟨rfl, hE⟩

/-- What may come of an operation on one world may come of it twice. -/
theorem diagonal {I J : World → Prop} {K : α → World → Prop} (hx : Attempts I x K J) :
    Matches (fun w w' => w = w' ∧ I w) x x (fun a b w w' => (a = b ∧ w = w') ∧ K a w)
      fun w w' => w = w' ∧ J w := by
  rintro w _ ⟨rfl, hw⟩
  have hx := hx w hw
  rcases hw₁ : x.run w with ⟨e | a, w₁⟩
  · rw [hw₁] at hx
    exact ⟨rfl, rfl, hx⟩
  · rw [hw₁] at hx
    exact ⟨⟨rfl, rfl⟩, hx⟩

/-- Both come to the same value. -/
theorem bindEq {x y : ExceptT ε (StateM World) α} {g : α → ExceptT ε (StateM World) δ}
    (hx : Matches P x y (Equally R) E) (hf : ∀ a, Matches R (f a) (g a) S E) :
    Matches P (x >>= f) (y >>= g) S E :=
  hx.bind fun a _ => fun w w' ⟨hab, hw⟩ => hab ▸ hf a w w' hw

/-- The values that are left over are computed alike. -/
theorem returns {x y : ExceptT ε (StateM World) α} (hx : Matches P x y (Equally R) E) (f : α → γ) :
    Matches P (do return f (← x)) (do return f (← y)) (Equally R) E :=
  hx.bindEq fun _ => pure fun _ _ hw => ⟨rfl, hw⟩

end Matches

/-- Both come to the same value. -/
theorem Twins.bindEq {x y : StateM World α} {f : α → StateM World γ} {g : α → StateM World δ}
    {S : γ → δ → World → World → Prop} (hx : Twins P x y (Equally R))
    (hf : ∀ a, Twins R (f a) (g a) S) : Twins P (x >>= f) (y >>= g) S :=
  hx.bind fun a _ => fun w w' ⟨hab, hw⟩ => hab ▸ hf a w w' hw

end Lineage

namespace Lineage

-- Nothing here depends on what the compiler makes of a source.
attribute [local irreducible] Program.compile

open World

/-! ## Parents that scripts name -/

/-- If it is asked for that an object get another parent, then one that is allowed. -/
def Request.Within (allowed : ObjectId → World → Prop) (r : Request) (w : World) : Prop :=
  match r with
  | .callBuiltin .chparent (_ :: parent :: _) => ∀ id, parent.obj? = some id → allowed id w
  | _ => True

/-- No step of a run gives an object a parent that is not allowed then. -/
def Machine.Keeping (allowed : ObjectId → World → Prop) : Nat → Machine → World → Prop
  | 0, _, _ => True
  | fuel + 1, m, w =>
    (∀ r f, m.running.frame.step = .ask r f → r.Within allowed w) ∧
      match m.step w with
      | (.running m, w) => m.Keeping allowed fuel w
      | (.halted _, _) => True

/-! ## Worlds that cannot be told apart -/

/-- Handles on the same object in related worlds. -/
def Held (rel : World → World → Prop) (at' : Handle → Handle → World → World → Prop)
    (h h' : Handle) (w w' : World) : Prop :=
  rel w w' ∧ at' h h' w w'

/-- Pairs of handles, each on the same object in related worlds. -/
def HeldAll (rel : World → World → Prop) (at' : Handle → Handle → World → World → Prop)
    (pairs : List (Handle × Handle)) (w w' : World) : Prop :=
  rel w w' ∧ ∀ p ∈ pairs, at' p.1 p.2 w w'

/-- Handles on the same objects in related worlds, one by one, and further pairs. -/
def Listed (rel : World → World → Prop) (at' : Handle → Handle → World → World → Prop)
    (more : List (Handle × Handle)) (handles handles' : List Handle) (w w' : World) : Prop :=
  ∃ pairs : List (Handle × Handle), handles = pairs.map Prod.fst ∧ handles' = pairs.map Prod.snd ∧
    HeldAll rel at' (pairs ++ more) w w'

/-- The same object has been found in related worlds, or in none of them. -/
def Found (rel : World → World → Prop) (at' : Handle → Handle → World → World → Prop) :
    Option Handle → Option Handle → World → World → Prop
  | some h, some h', w, w' => Held rel at' h h' w w'
  | none, none, w, w' => rel w w'
  | _, _, _, _ => False

/-- Worlds that are related, with `k` objects that can still be created, cannot be told apart by what
scripts are made of. -/
structure Lockstep (rel : Nat → World → World → Prop) (at' : Handle → Handle → World → World → Prop)
    (allowed : ObjectId → World → Prop) : Prop where
  less : ∀ {k w w'}, rel (k + 1) w w' → rel k w w'
  settings : ∀ {k w w'}, rel k w w' → w.session.runtime = w'.session.runtime ∧ w.clock = w'.clock
  copies : ∀ {k h h' w w'}, Held (rel k) at' h h' w w' → w.session.copyOf h = w'.session.copyOf h'
  load : ∀ k id, Matches (rel k) (load id) (load id) (Found (rel k) at') (rel k)
  list : ∀ k recycledToo, Matches (rel k) (list recycledToo) (list recycledToo)
    (Listed (rel k) at' []) (rel k)
  resolve : ∀ {α : Type} k (probe : Record → Option α) h h' more,
    Matches (HeldAll (rel k) at' ((h, h') :: more)) (resolve h probe) (resolve h' probe)
      (Equally (HeldAll (rel k) at' ((h, h') :: more))) (rel k)
  compiled : ∀ k definer name, Agree (rel k) (compiledMethod definer name)
  setProperty : ∀ k h h' name v, Twins (Held (rel k) at' h h') (setProperty h name v)
    (setProperty h' name v) fun _ _ => Held (rel k) at' h h'
  setMethod : ∀ k h h' name m, Twins (Held (rel k) at' h h') (setMethod h name m)
    (setMethod h' name m) fun _ _ => Held (rel k) at' h h'
  removeMethod : ∀ k h h' name, Twins (Held (rel k) at' h h') (removeMethod h name)
    (removeMethod h' name) (Equally (Held (rel k) at' h h'))
  save : ∀ k h h', Matches (Held (rel k) at' h h') (save h) (save h') (Equally (rel k)) (rel k)
  saveLater : ∀ k h h', Twins (Held (rel k) at' h h') (saveLater h) (saveLater h') fun _ _ => rel k
  createObject : ∀ k parent properties, Matches (rel (k + 1))
    (ScriptAction.createObject parent properties) (ScriptAction.createObject parent properties)
    (Equally (rel k)) (rel k)
  recycle : ∀ k id, Agree (rel k) (recycle id)
  draw : ∀ k limit, Twins (rel k) (ScriptAction.draw limit) (ScriptAction.draw limit) (Equally (rel k))
  chparent : ∀ k v parent rest, Matches
    (fun w w' => rel k w w' ∧ (Request.callBuiltin .chparent (v :: parent :: rest)).Within allowed w)
    (ScriptAction.builtin .chparent (v :: parent :: rest))
    (ScriptAction.builtin .chparent (v :: parent :: rest)) (Equally (rel k)) (rel k)

variable {rel : Nat → World → World → Prop} {at' : Handle → Handle → World → World → Prop}
  {allowed : ObjectId → World → Prop} {k : Nat} {h h' : Handle}

/-- What is done with an object that may have been found. -/
theorem Matches.found {ε β γ : Type} {x y : ExceptT ε (StateM World) (Option Handle)}
    {f : Option Handle → ExceptT ε (StateM World) β} {g : Option Handle → ExceptT ε (StateM World) γ}
    {P R E : World → World → Prop} {S : β → γ → World → World → Prop}
    (hx : Matches P x y (Found R at') E) (hnone : Matches R (f none) (g none) S E)
    (hsome : ∀ h h', Matches (Held R at' h h') (f (some h)) (g (some h')) S E) :
    Matches P (x >>= f) (y >>= g) S E := by
  refine hx.bind fun found found' => ?_
  cases found with
  | none =>
    cases found' with
    | none => exact hnone
    | some h' => exact fun _ _ hw => hw.elim
  | some h =>
    cases found' with
    | none => exact fun _ _ hw => hw.elim
    | some h' => exact hsome h h'

namespace Lockstep

variable (hL : Lockstep rel at' allowed)
include hL

/-! ## Objects -/

theorem recordOf (h h' : Handle) : Twins (Held (rel k) at' h h') (World.recordOf h)
    (World.recordOf h') (Equally (Held (rel k) at' h h')) :=
  fun _ _ hw => ⟨congrArg Copy.record (hL.copies hw), hw⟩

theorem resolved {α : Type} (probe : Record → Option α) (h h' : Handle) :
    Matches (Held (rel k) at' h h') (World.resolve h probe) (World.resolve h' probe)
      (Equally (rel k)) (rel k) :=
  (hL.resolve k probe h h' []).impl (fun _ _ hw => ⟨hw.1, fun _ hp => List.mem_singleton.mp hp ▸ hw.2⟩)
    (fun _ _ _ _ hw => ⟨hw.1, hw.2.1⟩) fun _ _ hw => hw

theorem object (id : ObjectId) :
    Matches (rel k) (World.object id) (World.object id) (Held (rel k) at') (rel k) :=
  (hL.load k id).found (.throw _ fun _ _ hw => hw) fun _ _ => .pure fun _ _ hw => hw

theorem alias? (name : String) : Agree (rel k) (World.alias? name) :=
  (hL.load k .root).found (.pure fun _ _ hw => ⟨rfl, hw⟩) fun h h' =>
    .bindEq (.lift (hL.recordOf h h')) fun _ => .pure fun _ _ hw => ⟨rfl, hw.1⟩

theorem setAlias (name : String) (target : ObjectId) : Agree (rel k) (World.setAlias name target) :=
  .bind (hL.object .root) fun h h' => .bindEq (.lift (hL.recordOf h h')) fun _ =>
    .bind (.lift (hL.setProperty k h h' _ _)) fun _ _ => .bindEq (hL.save k h h') fun _ =>
    .pure fun _ _ hw => ⟨rfl, hw⟩

/-! ## Searches -/

/-- Induction on the objects that are searched; the handles that have been put aside stay good. -/
theorem havingProperty (name : String) (wanted : Option Value) (pairs more : List (Handle × Handle)) :
    Matches (HeldAll (rel k) at' (pairs ++ more)) (World.havingProperty name wanted (pairs.map Prod.fst))
      (World.havingProperty name wanted (pairs.map Prod.snd)) (Listed (rel k) at' more) (rel k) := by
  induction pairs generalizing more with
  | nil => exact .pure fun _ _ hw => ⟨[], rfl, rfl, hw⟩
  | cons p rest ih =>
    refine .bindEq ((hL.resolve k _ p.1 p.2 (rest ++ more)).weaken fun _ _ hw => hw) fun found => ?_
    refine .bind ((ih (p :: more)).weaken fun _ _ hw => ⟨hw.1, fun q hq => hw.2 q ?_⟩) fun all all' => ?_
    · rcases List.mem_append.mp hq with hq | hq
      · exact List.mem_cons_of_mem _ (List.mem_append_left _ hq)
      · rcases List.mem_cons.mp hq with rfl | hq
        · exact List.mem_cons_self
        · exact List.mem_cons_of_mem _ (List.mem_append_right _ hq)
    · refine .pure fun w w' hw => ?_
      obtain ⟨chosen, rfl, rfl, hrel, hheld⟩ := hw
      have hpick (matching : Bool) : Listed (rel k) at' more
          (if matching then p.1 :: chosen.map Prod.fst else chosen.map Prod.fst)
          (if matching then p.2 :: chosen.map Prod.snd else chosen.map Prod.snd) w w' := by
        cases matching with
        | true =>
          refine ⟨p :: chosen, rfl, rfl, hrel, fun q hq => hheld q ?_⟩
          rcases List.mem_cons.mp hq with rfl | hq
          · exact List.mem_append_right _ List.mem_cons_self
          · rcases List.mem_append.mp hq with hq | hq
            · exact List.mem_append_left _ hq
            · exact List.mem_append_right _ (List.mem_cons_of_mem _ hq)
        | false =>
          refine ⟨chosen, rfl, rfl, hrel, fun q hq => hheld q ?_⟩
          rcases List.mem_append.mp hq with hq | hq
          · exact List.mem_append_left _ hq
          · exact List.mem_append_right _ (List.mem_cons_of_mem _ hq)
      exact hpick _

theorem findByProperty (name : String) (wanted : Option Value) :
    Matches (rel k) (World.findByProperty name wanted) (World.findByProperty name wanted)
      (Listed (rel k) at' []) (rel k) := by
  refine .bind (hL.list k false) fun all all' => ?_
  rintro w w' ⟨pairs, rfl, rfl, hw⟩
  exact hL.havingProperty name wanted pairs [] w w' hw

/-! ## Views -/

theorem viewValue (h h' : Handle) (key : String) : Matches (Held (rel k) at' h h')
    (World.viewValue h key) (World.viewValue h' key) (Equally (rel k)) (rel k) := by
  refine .bindEq (.lift (hL.recordOf h h')) fun record => ?_
  split
  · exact .pure fun _ _ hw => ⟨rfl, hw.1⟩
  · exact .pure fun _ _ hw => ⟨rfl, hw.1⟩
  · exact .pure fun _ _ hw => ⟨rfl, hw.1⟩
  · exact hL.resolved _ h h'

theorem viewSet (h h' : Handle) (key : String) (v : Value) : Matches (Held (rel k) at' h h')
    (World.viewSet h key v) (World.viewSet h' key v) (Equally (rel k)) (rel k) := by
  have hset : Matches (Held (rel k) at' h h') (do World.setProperty h key v; World.saveLater h : Action Unit)
      (do World.setProperty h' key v; World.saveLater h' : Action Unit) (Equally (rel k)) (rel k) :=
    .bind (.lift (hL.setProperty k h h' key v)) fun _ _ =>
      .lift ((hL.saveLater k h h').mono fun _ _ _ _ hw => ⟨rfl, hw⟩)
  unfold World.viewSet
  dsimp only
  split
  · exact .thrown _ fun _ _ hw => hw.1
  · exact hset

end Lockstep

end Lineage
