/-
  Lineage.Proofs.Script.Updating

  Assignments to elements of containers within containers.

  An assignment to `root[i1]...[ik]` reads the root, looks up one container after the
  other while it evaluates the indices from the left, evaluates the right side, and then
  makes the containers anew from the inside out (`assign_in_order`).  With indices and a
  right side that change nothing it is the update of the root at the path of their values,
  where the value is read from then on (`assign_updates`).
-/
import Lineage.Proofs.Program.StatementPlacement
import Lineage.Proofs.Script.ExprSimulation
import Lineage.Proofs.Script.Reading
import Lineage.Proofs.Value.Paths
import Lineage.Proofs.World.PropertyAccess

namespace Lineage.Script

variable {s : Scene}

/-- The element that indices lead to. -/
def Expr.path (root : Expr) : List Expr → Expr
  | [] => root
  | i :: indices => (Expr.index root i).path indices

/-! ## The order of evaluation -/

/-- Evaluate indices from the left, each before the element is looked up that the next one is for.
What comes of it are the containers with the index into each, the outermost first. -/
def goIn (s : Scene) : Value → List Expr → Eval (List (Value × Value))
  | _, [] => pure []
  | c, [e] => do
    let i ← e.eval s
    pure [(c, i)]
  | c, e :: indices => do
    let i ← e.eval s
    let inner ← Eval.of (c.index i)
    let steps ← goIn s inner indices
    pure ((c, i) :: steps)

/-- The outermost container with another value in the innermost one. -/
def rebuild (v : Value) : List (Value × Value) → Except ScriptError Value
  | [] => .ok v
  | (c, i) :: steps => do
    let changed ← rebuild v steps
    c.indexSet i changed

/-- The place of an element in containers within another place. -/
def Place.within (place : Place) : List (Value × Value) → Place
  | [] => place
  | (c, i) :: steps => (Place.element place c i).within steps

theorem of_bind {α β : Type} (x : Except ScriptError α) (f : α → Except ScriptError β) :
    Eval.of (x >>= f) = Eval.of x >>= fun a => Eval.of (f a) := by
  cases x <;> rfl

theorem Place.within_write (place : Place) (steps : List (Value × Value)) (v : Value) :
    (place.within steps).write v = Eval.of (rebuild v steps) >>= place.write := by
  induction steps generalizing place with
  | nil => rfl
  | cons step steps ih =>
    simp only [Place.within, ih, rebuild, of_bind, bind_assoc]
    rfl

theorem goIn_cons (c : Value) (e : Expr) {indices : List Expr} (h : indices ≠ []) :
    goIn s c (e :: indices) = (do
      let i ← e.eval s
      let inner ← Eval.of (c.index i)
      let steps ← goIn s inner indices
      pure ((c, i) :: steps)) := by
  cases indices with
  | nil => exact (h rfl).elim
  | cons => rfl

/-- Induction on the indices: the element of the first is the root of the others. -/
theorem path_place (root : Expr) {indices : List Expr} (h : indices ≠ []) :
    (root.path indices).place s = (do
      let r ← root.fetch s
      let steps ← goIn s r.2 indices
      pure (r.1.within steps)) := by
  induction indices generalizing root with
  | nil => exact (h rfl).elim
  | cons e indices ih =>
    by_cases hlast : indices = []
    · subst hlast
      simp only [Expr.path, Expr.place, Expr.fetch, goIn, bind_assoc, pure_bind]
      rfl
    · rw [Expr.path, ih _ hlast]
      simp only [goIn_cons _ e hlast, Expr.fetch, Expr.place, bind_assoc, pure_bind]
      rfl

/-- An assignment to an element evaluates each index once, from the left, and then the right side.
Only then it makes the containers anew and writes to the root. -/
theorem assign_in_order (root value : Expr) {indices : List Expr} (h : indices ≠ []) :
    (Expr.assign (root.path indices) value).eval s = (do
      let r ← root.fetch s
      let steps ← goIn s r.2 indices
      let v ← value.eval s
      let changed ← Eval.of (rebuild v steps)
      r.1.write changed
      pure v) := by
  simp only [Expr.eval, path_place root h, bind_assoc, pure_bind, Place.within_write]

/-! ## Operands that change nothing -/

/-- An expression gives a value, sets no variable and only brings objects into memory. -/
structure Quiet (s : Scene) (env : Env) (e : Expr) (w : World) (v : Value) (w' : World) : Prop where
  gives : e.eval s env w = some (.ok v, env, w')
  browsed : w.Browsed w'

/-- Expressions are evaluated from the left, and each of them is quiet. -/
inductive Quietly (s : Scene) (env : Env) : List Expr → World → List Value → World → Prop where
  | nil {w : World} (hw : w.Coherent) : Quietly s env [] w [] w
  | cons {e : Expr} {indices : List Expr} {w w₁ w' : World} {v : Value} {keys : List Value} :
      Quiet s env e w v w₁ → Quietly s env indices w₁ keys w' →
      Quietly s env (e :: indices) w (v :: keys) w'

variable {env : Env} {root value : Expr} {indices : List Expr} {c v : Value} {keys : List Value}
  {w w' : World}

theorem Quietly.browsed (h : Quietly s env indices w keys w') : w.Browsed w' := by
  induction h with
  | nil hw => exact .refl hw
  | cons hquiet _ ih => exact hquiet.browsed.trans ih

theorem Quietly.keys_ne_nil (h : Quietly s env indices w keys w') (hne : indices ≠ []) : keys ≠ [] := by
  cases h with
  | nil => exact (hne rfl).elim
  | cons => exact List.cons_ne_nil _ _

/-- Quiet indices lead to the containers on the path of their values, or to what cannot be looked up
on it. -/
theorem goIn_quiet (h : Quietly s env indices w keys w') (hne : indices ≠ []) (c : Value) :
    (∃ steps, goIn s c indices env w = some (.ok steps, env, w') ∧
      ∀ v, rebuild v steps = Value.replace v c keys) ∨
    ∃ e w₁, goIn s c indices env w = some (.error (.raised e), env, w₁) ∧ w.Browsed w₁ ∧
      ∀ v, Value.replace v c keys = .error e := by
  induction h generalizing c with
  | nil => exact (hne rfl).elim
  | @cons e indices w w₁ w' i keys hquiet hmore ih =>
    by_cases hlast : indices = []
    · subst hlast
      cases hmore
      refine .inl ⟨[(c, i)], ?_, fun v => rfl⟩
      rw [goIn, Eval.bind_apply, hquiet.gives]
      rfl
    · rw [goIn_cons c e hlast, Eval.bind_apply, hquiet.gives]
      dsimp only
      rw [Eval.bind_apply]
      simp only [Value.replace_cons (hmore.keys_ne_nil hlast)]
      cases c.index i with
      | error e => exact .inr ⟨e, w₁, rfl, hquiet.browsed, fun v => rfl⟩
      | ok inner =>
        show (∃ steps, (goIn s inner indices >>= _) env w₁ = _ ∧ _) ∨ _
        rcases ih hlast inner with ⟨steps, hrun, hrebuild⟩ | ⟨e, w₂, hrun, hbrowsed, hreplace⟩
        · refine .inl ⟨(c, i) :: steps, by rw [Eval.bind_apply, hrun]; rfl, fun v => ?_⟩
          rw [rebuild, hrebuild]
          rfl
        · refine .inr ⟨e, w₂, ?_, hquiet.browsed.trans hbrowsed, fun v => ?_⟩
          · show (goIn s inner indices >>= _) env w₁ = _
            rw [Eval.bind_apply, hrun]
          · show (Value.replace v inner keys >>= _) = _
            rw [hreplace]
            rfl

/-- Reading an element comes to what its path leads to, whatever indices have the values on it. -/
theorem read_path {w₀ : World} (h : Quietly s env indices w keys w')
    (hroot : root.eval s env w₀ = some (.ok c, env, w)) (hfollow : c.follow keys = .ok v) :
    (root.path indices).eval s env w₀ = some (.ok v, env, w') := by
  induction h generalizing root c with
  | nil =>
    cases hfollow
    exact hroot
  | @cons e indices w w₁ w' i keys hquiet _ ih =>
    obtain ⟨inner, hinner, hfollow⟩ := Value.bind_eq_ok hfollow
    suffices hread : (Expr.index root e).eval s env w₀ = some (.ok inner, env, w₁) from ih hread hfollow
    rw [Expr.eval, Eval.bind_apply, hroot]
    dsimp only
    rw [Eval.bind_apply, hquiet.gives]
    dsimp only
    rw [hinner]
    rfl

/-! ## Updates -/

/-- What comes of assigning a value to an element, the root being the container `c` in the world
`w`.  The containers on the path are looked up and made anew; if that fails, no variable is set and
nothing in the world has changed.  If it does not, the value is that of the assignment, the container
has it at the end of the path and is else the same, and it has been stored as the root. -/
def Settles (c : Value) (keys : List Value) (v : Value) (env : Env) (w : World)
    (result : Option (Except Stop Value × Env × World)) (stored : Value → Env → World → Prop) : Prop :=
  match Value.replace v c keys with
  | .error e => ∃ w', w.Browsed w' ∧ result = some (.error (.raised e), env, w')
  | .ok c' => c.Updates keys v c' ∧ ∃ env' w', result = some (.ok v, env', w') ∧ stored c' env' w'

/-- What is known of the new container as it has been stored. -/
theorem Settles.imp {result : Option (Except Stop Value × Env × World)}
    {stored stored' : Value → Env → World → Prop} (h : Settles c keys v env w result stored)
    (himp : ∀ c' env' w', c'.follow keys = .ok v → stored c' env' w' → stored' c' env' w') :
    Settles c keys v env w result stored' := by
  unfold Settles at h ⊢
  split at h
  · exact h
  · obtain ⟨hupdates, env', w', hresult, hstored⟩ := h
    exact ⟨hupdates, env', w', hresult, himp _ _ _ hupdates.found hstored⟩

/-- The root is read where its operands have led to. -/
theorem fetch_read {place : Place} {env₀ env' : Env} {w₀ : World} {r : Except Stop Value}
    (hplace : root.place s env₀ w₀ = some (.ok place, env, w))
    (hread : place.read env w = some (r, env', w')) :
    root.fetch s env₀ w₀ = some (r.map fun v => (place, v), env', w') := by
  rw [Expr.fetch, Eval.bind_apply, hplace]
  show (place.read >>= _) env w = _
  rw [Eval.bind_apply, hread]
  cases r <;> rfl

/-- An assignment whose root cannot be read. -/
theorem assign_unread {e : Stop} {env₀ : Env} {w₀ : World} (hne : indices ≠ [])
    (hfetch : root.fetch s env₀ w₀ = some (.error e, env, w)) :
    (Expr.assign (root.path indices) value).eval s env₀ w₀ = some (.error e, env, w) := by
  rw [assign_in_order root value hne, Eval.bind_apply, hfetch]

/-- An assignment whose root has been read. -/
theorem assign_fetched {place : Place} {env₀ : Env} {w₀ w₁ w₂ : World}
    (hfetch : root.fetch s env₀ w₀ = some (.ok (place, c), env, w))
    (hindices : Quietly s env indices w keys w₁) (hne : indices ≠ [])
    (hvalue : Quiet s env value w₁ v w₂) {stored : Value → Env → World → Prop}
    (hstore : ∀ c', Value.replace v c keys = .ok c' → ∃ env' w',
      place.write c' env w₂ = some (.ok (), env', w') ∧ stored c' env' w') :
    Settles c keys v env w ((Expr.assign (root.path indices) value).eval s env₀ w₀) stored := by
  rw [assign_in_order root value hne, Eval.bind_apply, hfetch]
  dsimp only
  rw [Eval.bind_apply]
  unfold Settles
  rcases goIn_quiet hindices hne c with ⟨steps, hrun, hrebuild⟩ | ⟨e, w', hrun, hbrowsed, hreplace⟩
  · rw [hrun]
    dsimp only
    rw [Eval.bind_apply, hvalue.gives]
    dsimp only
    rw [hrebuild]
    cases hreplace : Value.replace v c keys with
    | error e => exact ⟨w₂, hindices.browsed.trans hvalue.browsed, rfl⟩
    | ok c' =>
      obtain ⟨env', w', hwrite, hstored⟩ := hstore c' hreplace
      refine ⟨Value.replace_updates hreplace, env', w', ?_, hstored⟩
      show (place.write c' >>= fun _ => pure v) env w₂ = _
      rw [Eval.bind_apply, hwrite]
      rfl
  · rw [hrun, hreplace]
    exact ⟨w', hbrowsed, rfl⟩

/-- A plain value has no elements. -/
theorem replace_plain (hc : World.Plain c) (hne : keys ≠ []) :
    ∀ c', Value.replace v c keys ≠ .ok c' := by
  intro c' h
  obtain ⟨i, keys, rfl⟩ := List.exists_cons_of_ne_nil hne
  have hindex : ∀ u, c.index i ≠ .ok u := by
    rintro u hu
    rcases hc with ⟨id, rfl⟩ | ⟨b, rfl⟩ <;> cases i <;> cases hu
  by_cases hlast : keys = []
  · subst hlast
    rcases hc with ⟨id, rfl⟩ | ⟨b, rfl⟩ <;> cases i <;> cases h
  · rw [Value.replace_cons hlast] at h
    obtain ⟨inner, hinner, -⟩ := Value.bind_eq_ok h
    exact hindex inner hinner

theorem ask_getProp {o q : Value} {r : Except ScriptError Value}
    (h : (Machine.getProp o q).run w = (r, w')) :
    s.ask (.getProp o q) env w = some (r.mapError Stop.raised, env, w') := by
  cases r <;> simp only [Scene.ask, Activation.serve, ScriptAction.attempt, h] <;> rfl

theorem ask_putProp_run {o q u : Value} (h : (Machine.putProp o q v).run w = (.ok u, w')) :
    s.ask (.putProp o q v) env w = some (.ok u, env, w') := by
  simp only [Scene.ask, Activation.serve, ScriptAction.attempt, h]

theorem get_set {name : Name} (h : env[name.slot.toNat]? = some (some v)) :
    Eval.get s.names name env w = some (.ok v, env, w) := by
  rw [Eval.get, h]

theorem get_unset {name : Name} (h : ∀ v, env[name.slot.toNat]? ≠ some (some v)) :
    ∃ e, Eval.get s.names name env w = some (.error (.raised e), env, w) := by
  unfold Eval.get
  split
  · exact (h _ ‹_›).elim
  · exact ⟨_, rfl⟩

/-! ## Variables and properties as roots -/

theorem var_place (name : Name) (env : Env) (w : World) :
    (Expr.var name).place s env w = some (.ok (.named s name), env, w) := by
  rw [Expr.place]
  rfl

/-- A variable with a container gets the container that has been made anew. -/
theorem assign_var {name : Name} {w₁ w₂ : World} (hset : env[name.slot.toNat]? = some (some c))
    (hindices : Quietly s env indices w keys w₁) (hne : indices ≠ [])
    (hvalue : Quiet s env value w₁ v w₂) :
    Settles c keys v env w ((Expr.assign ((Expr.var name).path indices) value).eval s env w)
      fun c' env' w' => env' = env.setIfInBounds name.slot.toNat (some c') ∧ w' = w₂ ∧
        (Expr.var name).eval s env' w' = some (.ok c', env', w') := by
  have hfetch := fetch_read (s := s) (var_place name env w) (get_set hset)
  refine assign_fetched hfetch hindices hne hvalue fun c' _ => ⟨_, _, rfl, rfl, rfl, ?_⟩
  have hslot : name.slot.toNat < env.size := (Array.getElem?_eq_some_iff.mp hset).1
  exact get_set (Array.getElem?_setIfInBounds_self_of_lt hslot)

variable {object property : Expr} {o q : Value} {env₀ env₁ : Env} {w₀ w₁ w₂ : World}

theorem prop_place (hobject : object.eval s env₀ w₀ = some (.ok o, env₁, w₁))
    (hproperty : property.eval s env₁ w₁ = some (.ok q, env, w)) :
    (Expr.prop object property).place s env₀ w₀ = some (.ok (.property s o q), env, w) := by
  rw [Expr.place, Eval.bind_apply, hobject]
  show (property.eval s >>= _) env₁ w₁ = _
  rw [Eval.bind_apply, hproperty]
  rfl

/-- A property is read once its operands have been evaluated. -/
theorem prop_read (hobject : Quiet s env object w₀ o w₁) (hproperty : Quiet s env property w₁ q w)
    (hget : (Machine.getProp o q).run w = (.ok v, w')) :
    (Expr.prop object property).eval s env w₀ = some (.ok v, env, w') := by
  rw [Expr.eval, Eval.bind_apply, hobject.gives]
  dsimp only
  rw [Eval.bind_apply, hproperty.gives]
  dsimp only
  rw [ask_getProp hget]
  rfl

/-- A live object gets the container that has been made anew as a property of its own, and there it is
read.  If the name is one that cannot be assigned, the container is none. -/
theorem assign_prop {id : ObjectId} {h : Handle} {name : String} {w₃ w₄ : World}
    (hobject : object.eval s env₀ w₀ = some (.ok (.obj id), env₁, w₁))
    (hproperty : property.eval s env₁ w₁ = some (.ok (.str name), env, w))
    (hget : (Machine.getProp (.obj id) (.str name)).run w = (.ok c, w₂)) (hw : w₂.Coherent)
    (hlive : w₂.Live id h) (hplain : World.reservedKeys.contains name = true → World.Plain c)
    (hindices : Quietly s env indices w₂ keys w₃) (hne : indices ≠ [])
    (hvalue : Quiet s env value w₃ v w₄) :
    Settles c keys v env w₂
      ((Expr.assign ((Expr.prop object property).path indices) value).eval s env₀ w₀)
      fun c' env' w' => env' = env ∧ w₄.Owns w' id name c' ∧ ∀ w₅, w'.Browsed w₅ →
        (Machine.getProp (.obj id) (.str name)).run w₅ = (.ok c', w₅) := by
  have hfetch := fetch_read (prop_place hobject hproperty) (ask_getProp hget)
  have hquiet := hindices.browsed.trans hvalue.browsed
  refine assign_fetched hfetch hindices hne hvalue fun c' hreplace => ?_
  have hfree : World.reservedKeys.contains name = false := Bool.eq_false_iff.mpr fun hreserved =>
    replace_plain (hplain hreserved) (hindices.keys_ne_nil hne) c' hreplace
  obtain ⟨w', hput, howns, hread⟩ :=
    Machine.putProp_owns hquiet.coherent (hlive.browsed hw hquiet) hfree c'
  refine ⟨env, w', ?_, rfl, howns, hread⟩
  show (s.ask (.putProp (.obj id) (.str name) c') >>= fun _ => pure ()) env w₄ = _
  rw [Eval.bind_apply, ask_putProp_run hput]
  rfl

variable {p : Program} {C : Value → Prop}

/-- The code of an assignment to an element runs as its evaluation goes, which takes the indices from
the left, then the right side, then the containers from the inside out.  With indices and a right
side that change nothing it is an update of the root, be that a variable or a property; for the
property of an object it is the object that owns the changed container afterwards.  Then the value
that was assigned is read at the same values of the indices: by the target itself as long as its
operands still have the values they had, and by whatever else has them. -/
theorem assign_updates (hs : s.names = p.names) (hne : indices ≠ [])
    (hall : (Expr.assign (root.path indices) value).All C (Slotted p)) {i j : Nat}
    (hat : Expr.At p (.assign (root.path indices) value) i j) :
    let assignment := (Expr.assign (root.path indices) value).eval s
    (∀ stack scopes catches, Sim s p stack scopes s.fuel (Here p i stack scopes catches) assignment
      fun v => Here p j (v :: stack) scopes catches) ∧
    (assignment = do
      let r ← root.fetch s
      let steps ← goIn s r.2 indices
      let v ← value.eval s
      let changed ← Eval.of (rebuild v steps)
      r.1.write changed
      pure v) ∧
    (∀ name, root = .var name → ∀ env w,
      ((∀ c, env[name.slot.toNat]? ≠ some (some c)) →
        ∃ e, assignment env w = some (.error (.raised e), env, w)) ∧
      ∀ c keys w₁ v w₂, env[name.slot.toNat]? = some (some c) → Quietly s env indices w keys w₁ →
        Quiet s env value w₁ v w₂ →
        Settles c keys v env w (assignment env w) fun c' env' w' =>
          env' = env.setIfInBounds name.slot.toNat (some c') ∧ w' = w₂ ∧
          (∀ w₃, Quietly s env' indices w' keys w₃ →
            (root.path indices).eval s env' w' = some (.ok v, env', w₃)) ∧
          ∀ again w₃, Quietly s env' again w' keys w₃ →
            (root.path again).eval s env' w' = some (.ok v, env', w₃)) ∧
    (∀ object property, root = .prop object property → ∀ env₀ w₀ o env₁ w₁ q env w,
      object.eval s env₀ w₀ = some (.ok o, env₁, w₁) → property.eval s env₁ w₁ = some (.ok q, env, w) →
      w.Coherent → ∃ r w₂, (Machine.getProp o q).run w = (r, w₂) ∧ w.Browsed w₂ ∧
        match r with
        | .error e => assignment env₀ w₀ = some (.error (.raised e), env, w₂)
        | .ok c => ∀ keys w₃ v w₄, Quietly s env indices w₂ keys w₃ → Quiet s env value w₃ v w₄ →
          ∃ id name, o = .obj id ∧ q = .str name ∧
            Settles c keys v env w₂ (assignment env₀ w₀) fun c' env' w' =>
              env' = env ∧ w₄.Owns w' id name c' ∧
              (∀ w₅ w₆ w₇, Quiet s env object w' o w₅ → Quiet s env property w₅ q w₆ →
                Quietly s env indices w₆ keys w₇ →
                (root.path indices).eval s env w' = some (.ok v, env, w₇)) ∧
              ∀ again w₅, Quietly s env again w' keys w₅ →
                ((Expr.prop (.value o) (.value q)).path again).eval s env w' = some (.ok v, env, w₅)) := by
  refine ⟨fun stack _ _ => expr_sim hs _ hall hat stack, assign_in_order root value hne, ?_, ?_⟩
  · rintro name rfl env w
    refine ⟨fun hunset => ?_, fun c keys w₁ v w₂ hset hindices hvalue => ?_⟩
    · obtain ⟨e, hget⟩ := get_unset (s := s) (w := w) hunset
      exact ⟨e, assign_unread hne (fetch_read (var_place name env w) hget)⟩
    · refine (assign_var hset hindices hne hvalue).imp fun c' env' w' hfollow hstored => ?_
      obtain ⟨henv, hw', hroot⟩ := hstored
      exact ⟨henv, hw', fun _ hagain => read_path hagain hroot hfollow,
        fun _ _ hagain => read_path hagain hroot hfollow⟩
  · rintro object property rfl env₀ w₀ o env₁ w₁ q env w hobject hproperty hw
    have hread := Machine.getProp_attempts o q w (.refl hw)
    rcases hrun : (Machine.getProp o q).run w with ⟨r, w₂⟩
    rw [hrun] at hread
    cases r with
    | error e =>
      exact ⟨_, _, rfl, hread, assign_unread hne (fetch_read (prop_place hobject hproperty)
        (ask_getProp hrun))⟩
    | ok c =>
      obtain ⟨hbrowsed, id, name, h, rfl, rfl, hlive, hplain⟩ := hread
      refine ⟨_, _, rfl, hbrowsed, fun keys w₃ v w₄ hindices hvalue => ⟨id, name, rfl, rfl, ?_⟩⟩
      have hassigned := assign_prop hobject hproperty hrun hbrowsed.coherent hlive hplain hindices hne
        hvalue
      refine hassigned.imp fun c' env' w' hfollow hstored => ?_
      obtain ⟨rfl, howns, hget⟩ := hstored
      refine ⟨rfl, howns, fun w₅ w₆ w₇ ho hq hagain => ?_, fun again w₅ hagain => ?_⟩
      · exact read_path hagain (prop_read ho hq (hget w₆ (ho.browsed.trans hq.browsed))) hfollow
      · have hsame := World.Browsed.refl howns.coherent
        exact read_path hagain (prop_read ⟨rfl, hsame⟩ ⟨rfl, hsame⟩ (hget w' hsame)) hfollow

/-- The indices `[2]["k"]`. -/
def toEntry : List Expr := [.value (.int 2), .value (.str "k")]

/-- The assignment `a[2]["k"] = 5`. -/
def restocking : Expr := .assign ((Expr.var ⟨6⟩).path toEntry) (.value (.int 5))

/-- The property `#1.stock`. -/
def inherited : Expr := .prop (.value (.obj ⟨1⟩)) (.value (.str "stock"))

/-- The assignment `#1.stock[2]["k"] = 5`. -/
def overriding : Expr := .assign (inherited.path toEntry) (.value (.int 5))

/-- The script that makes both assignments. -/
def restockingScript : SyntaxTree where
  statements := [.mk 1 1 (.expr restocking), .mk 2 1 (.expr overriding)]
  names := ⟨Names.initial.texts.push "a"⟩

theorem restocking_sound : restockingScript.Sound := by
  refine ⟨Spelled, distinct_spelled, ?_⟩
  simp only [restockingScript, restocking, overriding, inherited, toEntry, Expr.path, Stmt.AllIn, Stmt.All,
    StmtNode.All, Expr.All, Spelled]
  decide

/-- The list `{1, ["k" -> n]}`. -/
def stock (n : Int64) : Value := .list [.int 1, .map [("k", .int n)]]

/-- A world in which `#1` has its stock from its parent. -/
def stocked : World := (Operation.setProperty ⟨0⟩ "stock" (stock 0)).after World.paired

theorem stocked_coherent : stocked.Coherent :=
  World.setProperty_keeps ⟨0⟩ "stock" (stock 0) World.paired World.paired_reachable.coherent

/-- The entry of the map in the list is replaced and read.  A variable has the list made anew; an object
that had it from its parent has it of its own. -/
theorem assign_updates_entry : ∃ p i j k l, restockingScript.compile = .ok p ∧
    Expr.At p restocking i j ∧ Expr.At p overriding k l ∧ ∀ call : Activation,
      let s : Scene := ⟨p.names, call, 0, 0⟩
      let env (n : Int64) : Env := Array.replicate 6 none ++ #[some (stock n)]
      (∀ w : World, w.Coherent → restocking.eval s (env 0) w = some (.ok (.int 5), env 5, w) ∧
        ((Expr.var ⟨6⟩).path toEntry).eval s (env 5) w = some (.ok (.int 5), env 5, w)) ∧
      ∃ w', overriding.eval s (env 0) stocked = some (.ok (.int 5), env 0, w') ∧
        stocked.Owns w' ⟨1⟩ "stock" (stock 5) ∧
        (inherited.path toEntry).eval s (env 0) w' = some (.ok (.int 5), env 0, w') := by
  obtain ⟨p, hcompile, hfits⟩ := SyntaxTree.exists_program
    (show (restockingScript.compile.toOption.any _) = true by decide +kernel)
  have hnames : restockingScript.names = p.names := SyntaxTree.compile_names hcompile
  obtain ⟨n, ⟨k, ⟨m, hat, -⟩, ⟨k', ⟨m', hat', -⟩, -⟩⟩, -⟩ := restocking_sound.codeOf hcompile hfits
  obtain ⟨C, -, ⟨hall, hall', -⟩⟩ := restocking_sound
  refine ⟨p, 0, m, k, m', hcompile, hat, hat', fun call => ?_⟩
  intro s env
  have quiet {n : Int64} {w : World} (hw : w.Coherent) (v : Value) :
      Quiet s (env n) (.value v) w v w := ⟨rfl, .refl hw⟩
  have hkeys {n : Int64} {w : World} (hw : w.Coherent) :=
    Quietly.cons (quiet (n := n) hw (.int 2)) (.cons (quiet hw (.str "k")) (.nil hw))
  constructor
  · intro w hw
    obtain ⟨-, -, hvariable, -⟩ := assign_updates (s := s) rfl (List.cons_ne_nil _ _) (hnames ▸ hall) hat
    obtain ⟨-, _, _, hrun, rfl, rfl, hread, -⟩ :=
      (hvariable ⟨6⟩ rfl (env 0) w).2 (stock 0) _ w (.int 5) w rfl (hkeys hw) (quiet hw _)
    exact ⟨hrun, hread _ (hkeys hw)⟩
  · obtain ⟨-, -, -, hproperty⟩ := assign_updates (s := s) rfl (List.cons_ne_nil _ _) (hnames ▸ hall') hat'
    obtain ⟨r, w₂, hget, hbrowsed, hsettles⟩ := hproperty (.value (.obj ⟨1⟩)) (.value (.str "stock")) rfl
      (env 0) stocked (.obj ⟨1⟩) (env 0) stocked (.str "stock") (env 0) stocked rfl rfl stocked_coherent
    have hstock : (Machine.getProp (.obj ⟨1⟩) (.str "stock")).run stocked = (.ok (stock 0), stocked) := rfl
    obtain ⟨rfl, rfl⟩ := Prod.mk.inj (hstock.symm.trans hget)
    obtain ⟨id, name, ho, hq, hsettles⟩ := hsettles _ stocked (.int 5) stocked
      (hkeys stocked_coherent) (quiet stocked_coherent _)
    cases ho
    cases hq
    obtain ⟨-, _, w', hrun, rfl, howns, hread, -⟩ := hsettles
    have hw' := howns.coherent
    exact ⟨w', hrun, howns, hread w' w' w' (quiet hw' _) (quiet hw' _) (hkeys hw')⟩

/-- The target `a[a[1]]`, of which the index depends on what is assigned. -/
def ownIndex : List Expr := [.index (.var ⟨6⟩) (.value (.int 1))]

/-- An evaluation with a single variable, before anything is called. -/
def alone : Scene :=
  let names : Names := ⟨Names.initial.texts.push "a"⟩
  ⟨names, .start ⟨#[], #[], names, #[], #[], []⟩ .nothing .nothing "eval" (.direct .nothing) [], 0, 0⟩

/-- The index of the target is `1` when it is assigned at.  When it is read afterwards the index is the
value that has been assigned, and there is nothing there. -/
theorem assign_not_read_back :
    let env (n : Int64) : Env := Array.replicate 6 none ++ #[some (.list [.int n, .int 2])]
    Quietly alone (env 1) ownIndex World.paired [.int 1] World.paired ∧
      Quiet alone (env 1) (.value (.int 5)) World.paired (.int 5) World.paired ∧
      (Expr.assign ((Expr.var ⟨6⟩).path ownIndex) (.value (.int 5))).eval alone (env 1) World.paired =
        some (.ok (.int 5), env 5, World.paired) ∧
      ((Expr.var ⟨6⟩).path ownIndex).eval alone (env 5) World.paired =
        some (.error (.raised (.withMessage .range "index 5 out of range 1..2")), env 5, World.paired) := by
  have hsame := World.Browsed.refl World.paired_reachable.coherent
  exact ⟨.cons ⟨rfl, hsame⟩ (.nil hsame.coherent), ⟨rfl, hsame⟩, rfl, rfl⟩

end Lineage.Script
