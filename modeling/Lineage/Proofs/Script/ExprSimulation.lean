/-
  Lineage.Proofs.Script.ExprSimulation

  The code of an expression does what its evaluation does.

  By recursion on the expression: the code of each part starts where that of the part
  before has left its value.  What an assignment keeps under the new value stands for
  the place that it writes to (`Stands`).
-/
import Lineage.Proofs.Machine.Dealing
import Lineage.Proofs.Script.Parts
import Lineage.Proofs.Script.Simulation
import Lineage.Proofs.World.Logic

namespace Lineage.Script

variable {C : Value → Prop} {s : Scene} {p : Program} {scopes : List Lineage.Scope}
  {catches : List (Catch × Label)}

/-- A variable has a slot in the program. -/
abbrev Slotted (p : Program) (name : Name) : Prop := name.slot.toNat < p.names.width

/-! ## Setting variables -/

/-- An evaluation sets variables one after the other. -/
theorem setAll_eq (bound : List (Name × Value)) (env : Env) (w : World) :
    Eval.setAll bound env w = some (.ok (), bound.foldl (fun env share =>
      env.setIfInBounds share.1.slot.toNat (some share.2)) env, w) := by
  induction bound generalizing env with
  | nil => rfl
  | cons share rest ih => exact ih _

/-- A target can only set variables that have slots. -/
theorem Target.AllIn.entries {N : Name → Prop} {targets : List Target} (h : Target.AllIn C N targets) :
    ∀ entry ∈ targets.map Target.entry, N entry.name := by
  induction targets with
  | nil => intro entry hentry; cases hentry
  | cons target targets ih =>
    have hparts : N target.entry.name ∧ Target.AllIn C N targets := by
      cases target with
      | required name => exact h
      | rest name => exact h
      | optional name default =>
        cases default with
        | none => exact h
        | some e => exact ⟨h.1, h.2.2⟩
    intro entry hentry
    rcases List.mem_cons.mp hentry with rfl | hmem
    · exact hparts.1
    · exact ih hparts.2 entry hmem

/-- The entries of a table are those of its targets. -/
theorem defaultsAt_erase {targets : List Target} {entries : List ScatterEntry} {i j : Nat}
    (h : DefaultsAt p targets entries i j) :
    entries.map ScatterEntry.erase = targets.map Target.entry := by
  induction targets generalizing entries i with
  | nil => obtain ⟨rfl, -⟩ := h; rfl
  | cons target targets ih =>
    cases target with
    | required name =>
      obtain ⟨rest, rfl, hrest⟩ := h
      simp only [List.map_cons, ih hrest, ScatterEntry.erase, Target.entry]
    | rest name =>
      obtain ⟨rest, rfl, hrest⟩ := h
      simp only [List.map_cons, ih hrest, ScatterEntry.erase, Target.entry]
    | optional name default =>
      cases default with
      | none =>
        obtain ⟨rest, rfl, hrest⟩ := h
        simp only [List.map_cons, ih hrest, ScatterEntry.erase, Target.entry]
      | some e =>
        obtain ⟨label, rest, k, rfl, -, -, -, -, hrest⟩ := h
        simp only [List.map_cons, ih hrest, ScatterEntry.erase, Target.entry]

/-- The instruction deals the list out, sets variables, and goes on where the first default is due. -/
theorem scatter_sim {targets : List Target} (htargets : Target.AllIn C (Slotted p) targets)
    {k m n : Nat} {slot : UInt16} {table : ScatterTable} {values : List Value} {stack : List Value}
    (hop : p.ops[k]? = some (.scatter slot)) (htable : p.scatterTables[slot.toNat]? = some table)
    (herase : table.entries.map ScatterEntry.erase = targets.map Target.entry)
    (hm : p.target ((Scatter.due (values.length - (scatterShape targets).requiredCount)
      table.entries).getD table.done) = some m) :
    Sim s p stack scopes n (Here p k (.list values :: stack) scopes catches)
      (Eval.of (Scatter.distribute (scatterShape targets) values) >>= fun shares =>
        Eval.setAll shares.bound)
      fun _ => Here p m (.list values :: stack) scopes catches := by
  have hshape : scatterShape targets = ⟨table.entries.map ScatterEntry.erase, ⟨0⟩⟩ := by
    rw [herase]; rfl
  have hcount : (scatterShape targets).requiredCount = table.requiredCount := by
    rw [hshape, ScatterTable.requiredCount_erase]
  rw [hshape, Scatter.distribute_erase]
  rintro env w c henv ⟨kept, rfl⟩
  have hstep : (frame p k (.list values :: stack) scopes catches kept env).step = _ :=
    (frame_step hop).trans (Frame.stepScatter_list htable rfl)
  cases hd : Scatter.distribute table values with
  | error e =>
    rw [hd] at hstep
    exact ⟨rfl, _, (Steps.raise hstep).leads, rfl, rfl, rfl, List.suffix_cons _ _⟩
  | ok shares =>
    rw [hd] at hstep
    obtain ⟨restSize, hdeal⟩ := Scatter.distribute_ok hd
    -- Every name that is bound is one of the targets, and so has a slot.
    have hslots : ∀ share ∈ shares.bound, share.1.slot.toNat < env.size := by
      intro share hshare
      obtain ⟨entry, hentry, hname⟩ := Scatter.deal_names hdeal share hshare
      have hmem : entry.erase ∈ targets.map Target.entry :=
        herase ▸ List.mem_map_of_mem hentry
      have hslot := htargets.entries _ hmem
      rw [ScatterEntry.erase_name, hname] at hslot
      exact Nat.lt_of_lt_of_le hslot henv
    have hbind := Frame.bindAll_slots
      (f := frame p (k + 1) (.list values :: stack) scopes catches kept env) hslots
    generalize hset : shares.bound.foldl _ _ = env' at hbind
    have hsize : env'.size = env.size := hset ▸ Frame.foldl_set_size shares.bound env
    -- The instruction jumps to the code of the first default that is due.
    rw [hcount, ← Scatter.deal_due hdeal] at hm
    simp only [hbind] at hstep
    rw [Frame.jump_target (f := { frame p (k + 1) (.list values :: stack) scopes catches kept env with
      env := env' }) hm] at hstep
    have heval : (Eval.of (Except.map (fun shares : Scatter.Shares =>
        { shares with defaultDue := none }) (.ok shares)) >>= fun shares =>
          Eval.setAll shares.bound) env w = some (.ok (), env', w) :=
      hset ▸ setAll_eq shares.bound env w
    rw [heval]
    exact ⟨hsize, _, (Steps.next hstep).leads, kept, rfl⟩

/-! ## The places of assignments -/

/-- The values that an assignment keeps on the stack, the last one first, stand for a place. -/
def Stands (s : Scene) : Expr → Place → List Value → Prop
  | .var name, place, kept => place = .named s name ∧ kept = []
  | .prop _ _, place, kept => ∃ o q, place = .property s o q ∧ kept = [q, o]
  | .index base _, place, kept => ∃ outer container i more,
      place = .element outer container i ∧ kept = i :: container :: more ∧ Stands s base outer more
  | _, _, _ => False

/-- Evaluate the operands of a target, and read what is there. -/
def Expr.fetch (s : Scene) (target : Expr) : Eval (Place × Value) := do
  let place ← target.place s
  let v ← place.read
  pure (place, v)

/-- Writing a property gives the value that was written. -/
theorem ask_putProp {o q v u : Value} {env env' : Env} {w w' : World}
    (h : s.ask (.putProp o q v) env w = some (.ok u, env', w')) : u = v := by
  obtain ⟨w₁, hrun⟩ : ∃ w₁, (Machine.putProp o q v).run w = (.ok u, w₁) := by
    have hanswer : ∃ w₁, (Machine.putProp o q v).attempt w = some (.returned u, w₁) := by
      simp only [Scene.ask, Activation.serve] at h
      generalize (Machine.putProp o q v).attempt w = r at h ⊢
      rcases r with _ | ⟨u' | e | _, w₁⟩ <;> cases h
      exact ⟨w', rfl⟩
    obtain ⟨w₁, hanswer⟩ := hanswer
    refine ⟨w₁, ?_⟩
    rw [ScriptAction.attempt] at hanswer
    generalize (Machine.putProp o q v).run w = r at hanswer ⊢
    rcases r with ⟨e | u', w₂⟩ <;> cases hanswer
    rfl
  -- Four parts of it can fail; after them `v` is all that it can give.
  simp only [Machine.putProp] at hrun
  obtain ⟨id, w₂, -, hrun⟩ := World.run_bind_ok hrun
  obtain ⟨name, w₃, -, hrun⟩ := World.run_bind_ok hrun
  obtain ⟨handle, w₄, -, hrun⟩ := World.run_bind_ok hrun
  obtain ⟨_, w₅, -, hrun⟩ := World.run_bind_ok hrun
  cases hrun
  rfl

/-- The code that puts changed containers back writes to the place.  It leaves the new value on the
stack, or in the case of an element the outermost container. -/
theorem putBack_sim (target : Expr) (ht : target.All C (Slotted p)) {place : Place}
    {kept : List Value} (hstands : Stands s target place kept) {i j : Nat}
    (hat : PutBackAt p target i j) (v aside : Value) (stack : List Value) :
    Sim s p stack scopes s.fuel (Holding p aside i (v :: kept ++ stack) scopes catches)
      (place.write v) fun _ env w c => ∃ top, (Draft.isIndexed target = false → top = v) ∧
        Holding p aside j (top :: stack) scopes catches env w c := by
  cases target with
  | var name =>
    obtain ⟨rfl, rfl⟩ := hstands
    obtain ⟨hop, rfl⟩ := hat
    exact (Sim.store hop ht).imp fun _ _ _ _ h => ⟨v, fun _ => rfl, h⟩
  | prop object property =>
    obtain ⟨o, q, rfl, rfl⟩ := hstands
    obtain ⟨hop, rfl⟩ := hat
    simp only [Place.property]
    refine (Sim.value (Sim.ask_holding hop (fun _ => rfl) (List.suffix_refl _))
      fun h => ask_putProp h).bind fun u => .pure ?_
    rintro env w c ⟨rfl, h⟩
    exact ⟨u, fun _ => rfl, h⟩
  | index base index =>
    obtain ⟨outer, container, n, more, rfl, rfl, hstands⟩ := hstands
    obtain ⟨hop, hat⟩ := hat
    simp only [Place.element]
    -- The changed container is the value that is written to its own place.
    refine (Sim.apply_holding hop (fun _ => rfl) (List.suffix_append more stack)).bind fun u =>
      (putBack_sim base ht.1 hstands hat u aside stack).imp ?_
    rintro _ env w c ⟨top, -, h⟩
    exact ⟨top, (fun h => nomatch h), h⟩
  | _ => exact hat.elim

/-! ## Expressions -/

mutual

theorem expr_sim (hs : s.names = p.names) (e : Expr) (he : e.All C (Slotted p)) {i j : Nat}
    (hat : Expr.At p e i j) (stack : List Value) :
    Sim s p stack scopes s.fuel (Here p i stack scopes catches) (e.eval s)
      fun v => Here p j (v :: stack) scopes catches := by
  cases e with
  | value v =>
    simp only [Expr.At] at hat
    obtain ⟨op, hop, hv, rfl⟩ := hat
    simp only [Expr.eval]
    refine Sim.apply (r := .ok v) hop (fun kept env => ?_) (List.suffix_refl _)
    cases hv with
    | @literal l v h =>
      show (match p.literals[l.slot.toNat]? with
        | some v => Reply.next ((frame p (i + 1) stack scopes catches kept env).push v)
        | none => .fault) = _
      rw [h]
      rfl
    | _ => rfl
  | var name =>
    simp only [Expr.At] at hat
    obtain ⟨hop, rfl⟩ := hat
    simp only [Expr.eval, hs]
    exact .load hop
  | and left right =>
    simp only [Expr.At] at hat
    obtain ⟨k, done, hl, hop, hr, ht⟩ := hat
    simp only [Expr.eval]
    refine (expr_sim hs left he.1 hl stack).bind fun v => ?_
    -- The left operand is dropped for the right one if it holds; else it stays, as the value.
    split
    case isTrue hv =>
      refine .before (.instruction hop fun kept env => ⟨kept, ?_⟩) (expr_sim hs right he.2 hr stack)
      show (if v.truth then Reply.next _ else _) = _
      rw [if_pos hv]; rfl
    case isFalse hv =>
      refine .before (.instruction hop fun kept env => ⟨kept, ?_⟩) (.pure fun _ _ _ h => h)
      show (if v.truth then Reply.next _ else _) = _
      rw [if_neg hv, Frame.jump_target ht]; rfl
  | or left right =>
    simp only [Expr.At] at hat
    obtain ⟨k, done, hl, hop, hr, ht⟩ := hat
    simp only [Expr.eval]
    refine (expr_sim hs left he.1 hl stack).bind fun v => ?_
    -- The other way round: here it stays if it holds.
    split
    case isTrue hv =>
      refine .before (.instruction hop fun kept env => ⟨kept, ?_⟩) (.pure fun _ _ _ h => h)
      show (if v.truth then _ else Reply.next _) = _
      rw [if_pos hv, Frame.jump_target ht]; rfl
    case isFalse hv =>
      refine .before (.instruction hop fun kept env => ⟨kept, ?_⟩) (expr_sim hs right he.2 hr stack)
      show (if v.truth then _ else Reply.next _) = _
      rw [if_neg hv]; rfl
  | binary op left right =>
    simp only [Expr.At] at hat
    obtain ⟨k, m, hl, hr, hop, rfl⟩ := hat
    simp only [Expr.eval]
    refine (expr_sim hs left he.1 hl stack).bind fun a =>
      ((expr_sim hs right he.2 hr (a :: stack)).lower (List.suffix_cons _ _)).bind fun b => ?_
    exact .apply hop (fun _ _ => rfl) (List.suffix_refl _)
  | unary op operand =>
    cases op with
    | neg =>
      simp only [Expr.At] at hat
      obtain ⟨k, ho, hop, rfl⟩ := hat
      simp only [Expr.eval]
      exact (expr_sim hs operand he ho stack).bind fun v =>
        .apply hop (fun _ _ => rfl) (List.suffix_refl _)
    | not =>
      simp only [Expr.At] at hat
      obtain ⟨k, ho, hop, rfl⟩ := hat
      simp only [Expr.eval]
      exact (expr_sim hs operand he ho stack).bind fun v =>
        .apply (r := .ok (.bool (!v.truth))) hop (fun _ _ => rfl) (List.suffix_refl _)
  | index base index =>
    simp only [Expr.At] at hat
    obtain ⟨k, m, hl, hr, hop, rfl⟩ := hat
    simp only [Expr.eval]
    refine (expr_sim hs base he.1 hl stack).bind fun a =>
      ((expr_sim hs index he.2 hr (a :: stack)).lower (List.suffix_cons _ _)).bind fun b => ?_
    exact .apply hop (fun _ _ => rfl) (List.suffix_refl _)
  | range base first last =>
    simp only [Expr.At] at hat
    obtain ⟨k, m, n, hb, hf, hl, hop, rfl⟩ := hat
    simp only [Expr.eval]
    refine (expr_sim hs base he.1 hb stack).bind fun a =>
      ((expr_sim hs first he.2.1 hf (a :: stack)).lower (List.suffix_cons _ _)).bind fun b =>
      ((expr_sim hs last he.2.2 hl (b :: a :: stack)).lower
        ((List.suffix_cons _ _).trans (List.suffix_cons _ _))).bind fun c => ?_
    exact .apply hop (fun _ _ => rfl) (List.suffix_refl _)
  | prop object property =>
    simp only [Expr.At] at hat
    obtain ⟨k, m, hl, hr, hop, rfl⟩ := hat
    simp only [Expr.eval]
    refine (expr_sim hs object he.1 hl stack).bind fun a =>
      ((expr_sim hs property he.2 hr (a :: stack)).lower (List.suffix_cons _ _)).bind fun b => ?_
    exact .ask hop (fun _ _ => rfl) (List.suffix_refl _)
  | call function args =>
    simp only [Expr.At] at hat
    obtain ⟨f, k, hf, ha, hop, rfl⟩ := hat
    simp only [Expr.eval, hf]
    exact (args_sim hs args he ha stack).bind fun vs =>
      .ask hop (fun _ _ => rfl) (List.suffix_refl _)
  | verb object name args =>
    simp only [Expr.At] at hat
    obtain ⟨k, m, n, ho, hn, ha, hop, rfl⟩ := hat
    simp only [Expr.eval]
    refine (expr_sim hs object he.1 ho stack).bind fun a =>
      ((expr_sim hs name he.2.1 hn (a :: stack)).lower (List.suffix_cons _ _)).bind fun b =>
      ((args_sim hs args he.2.2 ha (b :: a :: stack)).lower
        ((List.suffix_cons _ _).trans (List.suffix_cons _ _))).bind fun vs => ?_
    exact .ask hop (fun _ _ => rfl) (List.suffix_refl _)
  | cond condition consequence alternative =>
    simp only [Expr.At] at hat
    obtain ⟨k, m, otherwise, done, hc, hchoose, hcons, hjump, hother, halt, hdone⟩ := hat
    simp only [Expr.eval]
    refine (expr_sim hs condition he.1 hc stack).bind fun v => ?_
    -- The condition is dropped either way, and one of the two alternatives is skipped.
    have hperform (kept : Value) (env : Env) :
        (frame p (k + 1) (v :: stack) scopes catches kept env).perform (.choose otherwise) =
          (frame p (k + 1) stack scopes catches kept env).jumpUnless v.truth otherwise := rfl
    split
    case isTrue hv =>
      refine .before (.instruction hchoose fun kept env => ⟨kept, ?_⟩)
        ((expr_sim hs consequence he.2.1 hcons stack).after fun a =>
          (Goes.instruction hjump fun kept env => ⟨kept, Frame.jump_target hdone⟩).gets)
      rw [hperform, Frame.jumpUnless, if_pos hv]
    case isFalse hv =>
      refine .before (.instruction hchoose fun kept env => ⟨kept, ?_⟩)
        (expr_sim hs alternative he.2.2 halt stack)
      rw [hperform, Frame.jumpUnless, if_neg hv, Frame.jump_target hother]
      rfl
  | list items =>
    simp only [Expr.At] at hat
    simp only [Expr.eval]
    exact (args_sim hs items he hat stack).bind fun vs => .pure fun _ _ _ h => h
  | map entries =>
    simp only [Expr.At] at hat
    obtain ⟨hop, hentries⟩ := hat
    simp only [Expr.eval]
    exact .before (.instruction hop fun kept env => ⟨kept, rfl⟩)
      (entries_sim hs entries he hentries stack (.map []))
  | scatter targets source =>
    simp only [Expr.At] at hat
    obtain ⟨k, slot, table, hsource, hop, htable, hdefaults, hdone⟩ := hat
    simp only [Expr.eval]
    refine (expr_sim hs source he.2 hsource stack).bind fun v => ?_
    cases v with
    | list values =>
      -- Which default is due first depends on how many values there are for the optional targets.
      obtain ⟨-, hdue⟩ := defaults_sim hs targets he.1 hdefaults (.list values :: stack)
      obtain ⟨m, hm, hrest⟩ := hdue (values.length - (scatterShape targets).requiredCount) table.done hdone
      simp only []
      rw [← bind_assoc]
      refine (scatter_sim he.1 hop htable (defaultsAt_erase hdefaults) hm).bind fun _ => ?_
      exact (hrest.lower (List.suffix_cons _ _)).bind fun _ => .pure fun _ _ _ h => h
    | _ =>
      refine .raise hop (fun kept env => ?_) (List.suffix_refl _)
      show Frame.stepScatter _ slot = _
      simp only [Frame.stepScatter, frame, htable]
  | assign target value =>
    simp only [Expr.At] at hat
    obtain ⟨k, m, hloc, hval, hput⟩ := hat
    simp only [Expr.eval]
    refine (location_sim hs target he.1 hloc stack).bind fun place => .exists fun kept hstands => ?_
    refine ((expr_sim hs value he.2 hval (kept ++ stack)).lower (List.suffix_append _ _)).bind
      fun v => ?_
    -- Putting back an element leaves the outermost container on the stack, so the value is kept
    -- aside to be pushed in its stead.
    by_cases hindexed : Draft.isIndexed target
    · rw [if_pos hindexed] at hput
      obtain ⟨n, hkeep, hput, hpop, hpush, rfl⟩ := hput
      refine .before (.keep hkeep) ?_
      refine (putBack_sim target he.1 hstands hput v v stack).bind fun _ => .exists fun top _ => ?_
      exact .before (.restore hpop hpush) (.pure fun _ _ _ h => h)
    · rw [if_neg hindexed] at hput
      refine .here fun aside => ?_
      refine (putBack_sim target he.1 hstands hput v aside stack).bind fun _ =>
        .exists fun top htop => .pure fun _ _ _ h => ?_
      rw [← htop (Bool.eq_false_iff.mpr hindexed)]
      exact ⟨aside, h⟩

theorem location_sim (hs : s.names = p.names) (target : Expr) (ht : target.All C (Slotted p))
    {i j : Nat} (hat : LocationAt p false target i j) (stack : List Value) :
    Sim s p stack scopes s.fuel (Here p i stack scopes catches) (target.place s)
      fun place env w c => ∃ kept, Stands s target place kept ∧
        Here p j (kept ++ stack) scopes catches env w c := by
  cases target with
  | var name =>
    simp only [LocationAt, Bool.false_eq_true, if_false] at hat
    obtain rfl := hat
    simp only [Expr.place]
    exact .pure fun _ _ _ h => ⟨[], ⟨rfl, rfl⟩, h⟩
  | prop object property =>
    simp only [LocationAt, Bool.false_eq_true, if_false] at hat
    obtain ⟨k, m, ho, hp, rfl⟩ := hat
    simp only [Expr.place]
    exact (expr_sim hs object ht.1 ho stack).bind fun o =>
      ((expr_sim hs property ht.2 hp (o :: stack)).lower (List.suffix_cons _ _)).bind fun q =>
      .pure fun _ _ _ h => ⟨[q, o], ⟨o, q, rfl, rfl⟩, h⟩
  | index base index =>
    simp only [LocationAt, Bool.false_eq_true, if_false] at hat
    obtain ⟨k, m, hbase, hindex, rfl⟩ := hat
    have hread := fetch_sim hs base ht.1 hbase stack
    -- The container is read on the way to the place, as `fetch` does.
    have hplace : (Expr.index base index).place s = (base.fetch s >>= fun r => do
        let i ← index.eval s
        pure (Place.element r.1 r.2 i)) := by
      simp only [Expr.place, Expr.fetch, bind_assoc, pure_bind]
    rw [hplace]
    refine hread.bind fun r => .exists fun kept hstands => ?_
    exact ((expr_sim hs index ht.2 hindex (r.2 :: kept ++ stack)).lower (List.suffix_append _ _)).bind
      fun v => .pure fun _ _ _ h => ⟨v :: r.2 :: kept, ⟨r.1, r.2, v, kept, rfl, rfl, hstands⟩, h⟩
  | _ => simp only [LocationAt] at hat

/-- The container around an element is read before the index is evaluated. -/
theorem fetch_sim (hs : s.names = p.names) (target : Expr) (ht : target.All C (Slotted p))
    {i j : Nat} (hat : LocationAt p true target i j) (stack : List Value) :
    Sim s p stack scopes s.fuel (Here p i stack scopes catches) (target.fetch s)
      fun r env w c => ∃ kept, Stands s target r.1 kept ∧
        Here p j (r.2 :: kept ++ stack) scopes catches env w c := by
  cases target with
  | var name =>
    simp only [LocationAt, if_true] at hat
    obtain ⟨hop, rfl⟩ := hat
    simp only [Expr.fetch, Expr.place, pure_bind, Place.named, hs]
    exact (Sim.load hop).bind fun v => .pure fun _ _ _ h => ⟨[], ⟨by rw [Place.named, hs], rfl⟩, h⟩
  | prop object property =>
    simp only [LocationAt, if_true] at hat
    obtain ⟨k, m, ho, hp, hop, rfl⟩ := hat
    simp only [Expr.fetch, Expr.place, bind_assoc, pure_bind, Place.property]
    refine (expr_sim hs object ht.1 ho stack).bind fun o =>
      ((expr_sim hs property ht.2 hp (o :: stack)).lower (List.suffix_cons _ _)).bind fun q =>
      (Sim.ask hop (fun _ _ => rfl) (List.suffix_append [q, o] stack)).bind fun v =>
      .pure fun _ _ _ h => ⟨[q, o], ⟨o, q, rfl, rfl⟩, h⟩
  | index base index =>
    simp only [LocationAt, if_true] at hat
    obtain ⟨k, m, hbase, hindex, hop, rfl⟩ := hat
    have hread := fetch_sim hs base ht.1 hbase stack
    have hplace : (Expr.index base index).fetch s = (base.fetch s >>= fun r => do
        let i ← index.eval s
        let v ← (Place.element r.1 r.2 i).read
        pure (Place.element r.1 r.2 i, v)) := by
      simp only [Expr.fetch, Expr.place, bind_assoc, pure_bind]
    rw [hplace]
    refine hread.bind fun r => .exists fun kept hstands => ?_
    exact ((expr_sim hs index ht.2 hindex (r.2 :: kept ++ stack)).lower (List.suffix_append _ _)).bind
      fun v => (Sim.apply hop (fun _ _ => rfl) (List.suffix_append (v :: r.2 :: kept) stack)).bind
      fun u => .pure fun _ _ _ h => ⟨v :: r.2 :: kept, ⟨r.1, r.2, v, kept, rfl, rfl, hstands⟩, h⟩
  | _ => simp only [LocationAt] at hat

/-- The code of the defaults, from the first one on and from the one that is due on. -/
theorem defaults_sim (hs : s.names = p.names) (targets : List Target)
    (h : Target.AllIn C (Slotted p) targets) {entries : List ScatterEntry} {i j : Nat}
    (hat : DefaultsAt p targets entries i j) (stack : List Value) :
    Sim s p stack scopes s.fuel (Here p i stack scopes catches) (evalDefaults s 0 targets)
      (fun _ => Here p j stack scopes catches) ∧
    ∀ taken done, p.target done = some j →
      ∃ k, p.target ((Scatter.due taken entries).getD done) = some k ∧
        Sim s p stack scopes s.fuel (Here p k stack scopes catches) (evalDefaults s taken targets)
          fun _ => Here p j stack scopes catches := by
  match targets with
  | [] =>
    simp only [DefaultsAt] at hat
    obtain ⟨rfl, rfl⟩ := hat
    simp only [evalDefaults]
    exact ⟨.pure fun _ _ _ h => h, fun taken done hdone => ⟨j, hdone, .pure fun _ _ _ h => h⟩⟩
  | .required name :: targets =>
    simp only [DefaultsAt] at hat
    obtain ⟨rest, rfl, hrest⟩ := hat
    simp only [evalDefaults, Scatter.due]
    exact defaults_sim hs targets h.2 hrest stack
  | .rest name :: targets =>
    simp only [DefaultsAt] at hat
    obtain ⟨rest, rfl, hrest⟩ := hat
    simp only [evalDefaults, Scatter.due]
    exact defaults_sim hs targets h.2 hrest stack
  | .optional name none :: targets =>
    simp only [DefaultsAt] at hat
    obtain ⟨rest, rfl, hrest⟩ := hat
    obtain ⟨hall, hdue⟩ := defaults_sim hs targets h.2 hrest stack
    simp only [evalDefaults]
    refine ⟨hall, fun taken done hdone => ?_⟩
    cases taken with
    | zero => exact hdue 0 done hdone
    | succ taken => exact hdue taken done hdone
  | .optional name (some e) :: targets =>
    simp only [DefaultsAt] at hat
    obtain ⟨label, rest, k, rfl, hlabel, he, hstore, hpop, hrest⟩ := hat
    obtain ⟨hall, hdue⟩ := defaults_sim hs targets h.2.2 hrest stack
    -- From here on everything is due: this default, and all after it.
    have hthis : Sim s p stack scopes s.fuel (Here p i stack scopes catches)
        (evalDefaults s 0 (.optional name (some e) :: targets))
        fun _ => Here p j stack scopes catches := by
      simp only [evalDefaults]
      exact (expr_sim hs e h.2.1 he stack).bind fun v =>
        (Sim.store_here hstore h.1).bind fun _ =>
        .before (.instruction hpop fun kept env => ⟨kept, rfl⟩) hall
    refine ⟨hthis, fun taken done hdone => ?_⟩
    cases taken with
    | zero => exact ⟨i, hlabel, hthis⟩
    | succ taken =>
      simp only [evalDefaults]
      exact hdue taken done hdone

theorem args_sim (hs : s.names = p.names) (args : List Arg) (h : Arg.AllIn C (Slotted p) args)
    {i j : Nat} (hat : ArgsAt p args i j) (stack : List Value) :
    Sim s p stack scopes s.fuel (Here p i stack scopes catches) (evalArgs s args)
      fun vs => Here p j (.list vs :: stack) scopes catches := by
  match args with
  | [] =>
    simp only [ArgsAt] at hat
    obtain ⟨hop, rfl⟩ := hat
    simp only [evalArgs]
    exact .before (.instruction hop fun kept env => ⟨kept, rfl⟩) (.pure fun _ _ _ h => h)
  | .item e :: rest =>
    simp only [ArgsAt] at hat
    obtain ⟨k, he, hop, hrest⟩ := hat
    simp only [evalArgs]
    exact (expr_sim hs e h.1 he stack).bind fun v =>
      .before (.instruction hop fun kept env => ⟨kept, rfl⟩)
        (moreArgs_sim hs rest h.2 hrest stack [v])
  | .splice e :: rest =>
    simp only [ArgsAt] at hat
    obtain ⟨k, he, hop, hrest⟩ := hat
    simp only [evalArgs]
    refine (expr_sim hs e h.1 he stack).bind fun v => ?_
    cases v with
    | list vs =>
      exact .before (.instruction hop fun kept env => ⟨kept, rfl⟩)
        (moreArgs_sim hs rest h.2 hrest stack vs)
    | _ => exact .raise hop (fun _ _ => rfl) (List.suffix_refl _)

theorem moreArgs_sim (hs : s.names = p.names) (args : List Arg) (h : Arg.AllIn C (Slotted p) args)
    {i j : Nat} (hat : MoreArgsAt p args i j) (stack done : List Value) :
    Sim s p stack scopes s.fuel (Here p i (.list done :: stack) scopes catches)
      (evalMoreArgs s done args) fun vs => Here p j (.list vs :: stack) scopes catches := by
  match args with
  | [] =>
    simp only [MoreArgsAt] at hat
    obtain rfl := hat
    simp only [evalMoreArgs]
    exact .pure fun _ _ _ h => h
  | .item e :: rest =>
    simp only [MoreArgsAt] at hat
    obtain ⟨k, he, hop, hrest⟩ := hat
    simp only [evalMoreArgs]
    exact ((expr_sim hs e h.1 he (.list done :: stack)).lower (List.suffix_cons _ _)).bind fun v =>
      .before (.instruction hop fun kept env => ⟨kept, rfl⟩)
        (moreArgs_sim hs rest h.2 hrest stack (done ++ [v]))
  | .splice e :: rest =>
    simp only [MoreArgsAt] at hat
    obtain ⟨k, he, hop, hrest⟩ := hat
    simp only [evalMoreArgs]
    refine ((expr_sim hs e h.1 he (.list done :: stack)).lower (List.suffix_cons _ _)).bind fun v => ?_
    cases v with
    | list vs =>
      exact .before (.instruction hop fun kept env => ⟨kept, rfl⟩)
        (moreArgs_sim hs rest h.2 hrest stack (done ++ vs))
    | _ => exact .raise hop (fun _ _ => rfl) (List.suffix_refl _)

theorem entries_sim (hs : s.names = p.names) (entries : List (Expr × Expr))
    (h : Expr.AllIn C (Slotted p) entries) {i j : Nat} (hat : EntriesAt p entries i j)
    (stack : List Value) (m : Value) :
    Sim s p stack scopes s.fuel (Here p i (m :: stack) scopes catches) (evalEntries s m entries)
      fun v => Here p j (v :: stack) scopes catches := by
  match entries with
  | [] =>
    simp only [EntriesAt] at hat
    obtain rfl := hat
    simp only [evalEntries]
    exact .pure fun _ _ _ h => h
  | (key, value) :: rest =>
    simp only [EntriesAt] at hat
    obtain ⟨k, n, hk, hv, hop, hrest⟩ := hat
    simp only [evalEntries]
    refine ((expr_sim hs key h.1 hk (m :: stack)).lower (List.suffix_cons _ _)).bind fun a =>
      ((expr_sim hs value h.2.1 hv (a :: m :: stack)).lower
        ((List.suffix_cons _ _).trans (List.suffix_cons _ _))).bind fun b => ?_
    cases a with
    | str a =>
      exact (Sim.apply hop (fun _ _ => rfl) (List.suffix_refl _)).bind fun m =>
        entries_sim hs rest h.2.2 hrest stack m
    | _ => exact .raise hop (fun _ _ => rfl) (List.suffix_refl _)

end

end Lineage.Script
