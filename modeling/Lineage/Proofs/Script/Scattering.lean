/-
  Lineage.Proofs.Script.Scattering

  What a scattering assignment does with a list.

  Every element goes to one target.  Required targets take one each, the leftmost
  optional targets take one each of what is to spare, and a rest target takes all that
  is left: the values of the targets, read in order with the rest spliced in, are the
  list again (`Deals`).  The targets that take nothing are optional ones, and their
  defaults come after, in order.

  How many elements there are decides everything before any variable is set, so a list
  that does not fit changes none.
-/
import Lineage.Proofs.Program.StatementPlacement
import Lineage.Proofs.Script.ExprSimulation
import Lineage.Proofs.Script.Reading

namespace Lineage.Script

/-! ## Targets -/

/-- The variable that a target sets. -/
def Target.name : Target → Name
  | .required name | .optional name _ | .rest name => name

def Target.isRequired : Target → Bool
  | .required _ => true
  | _ => false

def Target.isOptional : Target → Bool
  | .optional _ _ => true
  | _ => false

/-- The targets that take something when `spare` of the optional ones do: all others, and the
leftmost of these. -/
def filled : Nat → List Target → List Target
  | _, [] => []
  | 0, .optional _ _ :: targets => filled 0 targets
  | spare + 1, .optional name default :: targets => .optional name default :: filled spare targets
  | spare, .required name :: targets => .required name :: filled spare targets
  | spare, .rest name :: targets => .rest name :: filled spare targets

/-- The optional targets, each with its default. -/
def optionals : List Target → List (Name × Option Expr)
  | [] => []
  | .optional name default :: targets => (name, default) :: optionals targets
  | .required _ :: targets | .rest _ :: targets => optionals targets

/-- The defaults of the optional targets after the first `taken` ones, with what they are for. -/
def defaultsAfter (taken : Nat) (targets : List Target) : List (Name × Expr) :=
  ((optionals targets).drop taken).filterMap fun target => target.2.map (target.1, ·)

/-- A list is too short for the targets, or too long. -/
def Misfits (targets : List Target) (values : List Value) : Prop :=
  values.length < targets.countP Target.isRequired ∨
    (countRests targets = 0 ∧
      targets.countP Target.isRequired + targets.countP Target.isOptional < values.length)

/-- What a target takes of a list, and its value then. -/
inductive Target.Takes : Target → List Value → Value → Prop where
  | required (name : Name) (v : Value) : Takes (.required name) [v] v
  | optional (name : Name) (default : Option Expr) (v : Value) : Takes (.optional name default) [v] v
  | rest (name : Name) (values : List Value) : Takes (.rest name) values (.list values)

/-- The values of the targets are a list, dealt from the left. -/
inductive Deals : List (Target × Value) → List Value → Prop where
  | nil : Deals [] []
  | cons {target : Target} {taken values : List Value} {v : Value} {more : List (Target × Value)} :
      target.Takes taken v → Deals more values → Deals ((target, v) :: more) (taken ++ values)

/-- The variables after the targets have been set, from the left. -/
def Env.deal (env : Env) (dealt : List (Target × Value)) : Env :=
  dealt.foldl (fun env share => env.setIfInBounds share.1.name.slot.toNat (some share.2)) env

/-- Evaluate defaults from the left, each after the ones before it have been set. -/
def setDefaults (s : Scene) : List (Name × Expr) → Eval Unit
  | [] => pure ()
  | (name, default) :: rest => do
    let v ← default.eval s
    Eval.set name v
    setDefaults s rest

variable {spare restSize taken : Nat} {targets : List Target} {values : List Value} {env : Env}

theorem Target.entry_name (target : Target) : target.entry.name = target.name := by
  cases target <;> rfl

theorem scatterShape_required : (scatterShape targets).requiredCount =
    targets.countP Target.isRequired := by
  simp only [scatterShape, ScatterTable.requiredCount, List.countP_map]
  refine List.countP_congr fun target _ => ?_
  cases target <;> rfl

theorem scatterShape_rest (targets : List Target) : (scatterShape targets).hasRest = true ↔ 0 < countRests targets := by
  simp only [scatterShape, ScatterTable.hasRest, countRests, List.any_map, List.any_eq_true,
    List.countP_pos_iff]
  refine exists_congr fun target => and_congr_right fun _ => ?_
  cases target <;> simp [Target.entry]

theorem length_eq_counts (targets : List Target) : targets.length =
    targets.countP Target.isRequired + targets.countP Target.isOptional + countRests targets := by
  induction targets with
  | nil => rfl
  | cons target targets ih =>
    cases target <;>
      simp [countRests, List.countP_cons, Target.isRequired, Target.isOptional] at ih ⊢ <;> omega

theorem Deals.uncons {target : Target} {v : Value} {more : List (Target × Value)}
    (h : Deals ((target, v) :: more) values) :
    ∃ taken rest, values = taken ++ rest ∧ target.Takes taken v ∧ Deals more rest := by
  obtain _ | ⟨htakes, hdeals⟩ := h
  exact ⟨_, _, rfl, htakes, hdeals⟩

/-! ## Who takes something -/

/-- Of the optional targets, those that take something are the first ones. -/
theorem filled_optional : (filled spare targets).filter Target.isOptional =
    (targets.filter Target.isOptional).take spare := by
  fun_induction filled spare targets with
  | case1 => simp
  | case2 name default targets ih => simpa [Target.isOptional] using ih
  | case3 spare name default targets ih =>
    rw [List.filter_cons_of_pos rfl, List.filter_cons_of_pos rfl, List.take_succ_cons, ih]
  | case4 spare name targets ih => simpa [Target.isOptional] using ih
  | case5 spare name targets ih => simpa [Target.isOptional] using ih

/-- All other targets take something. -/
theorem filled_others : (filled spare targets).filter (!·.isOptional) =
    targets.filter (!·.isOptional) := by
  fun_induction filled spare targets with
  | case1 => rfl
  | case2 name default targets ih => simpa [Target.isOptional] using ih
  | case3 spare name default targets ih => simpa [Target.isOptional] using ih
  | case4 spare name targets ih => simpa [Target.isOptional] using ih
  | case5 spare name targets ih => simpa [Target.isOptional] using ih

theorem filled_sublist : (filled spare targets).Sublist targets := by
  fun_induction filled spare targets with
  | case1 => exact .slnil
  | case2 name default targets ih => exact ih.cons _
  | case3 spare name default targets ih => exact ih.cons_cons _
  | case4 spare name targets ih => exact ih.cons_cons _
  | case5 spare name targets ih => exact ih.cons_cons _

/-- How many elements the targets take when a rest target takes `restSize`. -/
def need (restSize : Nat) : Nat → List Target → Nat
  | _, [] => 0
  | 0, .optional _ _ :: targets => need restSize 0 targets
  | spare + 1, .optional _ _ :: targets => need restSize spare targets + 1
  | spare, .required _ :: targets => need restSize spare targets + 1
  | spare, .rest _ :: targets => need restSize spare targets + restSize

theorem need_eq : need restSize spare targets = targets.countP Target.isRequired +
    min spare (targets.countP Target.isOptional) + countRests targets * restSize := by
  fun_induction need restSize spare targets with
  | case1 spare => simp [countRests]
  | case2 _ _ targets ih => simpa [countRests, List.countP_cons, Target.isRequired] using ih
  | case3 spare _ _ targets ih =>
    simp [countRests, List.countP_cons, Target.isRequired, Target.isOptional] at ih ⊢
    omega
  | case4 spare _ targets ih =>
    simp [countRests, List.countP_cons, Target.isRequired, Target.isOptional] at ih ⊢
    omega
  | case5 spare _ targets ih =>
    simp [countRests, Target.isRequired, Target.isOptional, Nat.add_mul] at ih ⊢
    omega

/-- A list of just as many elements as the targets need is dealt out in full. -/
theorem deal_filled (h : values.length = need restSize spare targets) :
    ∃ dealt, dealt.map Prod.fst = filled spare targets ∧ Deals dealt values ∧
      Scatter.deal spare restSize (targets.map Target.entry) values =
        .ok ⟨dealt.map fun share => (share.1.name, share.2), none⟩ := by
  fun_induction need restSize spare targets generalizing values with
  | case1 spare =>
    obtain rfl := List.length_eq_zero_iff.mp h
    exact ⟨[], rfl, .nil, rfl⟩
  | case2 name default targets ih =>
    obtain ⟨dealt, hfst, hdeals, hdeal⟩ := ih h
    refine ⟨dealt, hfst, hdeals, ?_⟩
    simp only [List.map_cons, Target.entry, Scatter.deal, hdeal]
    rfl
  | case3 spare name default targets ih =>
    obtain ⟨v, values, rfl⟩ := List.exists_cons_of_length_eq_add_one h
    obtain ⟨dealt, hfst, hdeals, hdeal⟩ := ih (Nat.succ.inj h)
    refine ⟨(.optional name default, v) :: dealt, congrArg (_ :: ·) hfst,
      .cons (.optional ..) hdeals, ?_⟩
    simp only [List.map_cons, Target.entry, Scatter.deal, hdeal]
    rfl
  | case4 spare name targets ih =>
    obtain ⟨v, values, rfl⟩ := List.exists_cons_of_length_eq_add_one h
    obtain ⟨dealt, hfst, hdeals, hdeal⟩ := ih (Nat.succ.inj h)
    refine ⟨(.required name, v) :: dealt, ?_, .cons (.required ..) hdeals, ?_⟩
    · simp only [List.map_cons, filled, hfst]
    · simp only [List.map_cons, Target.entry, Scatter.deal, hdeal]
      rfl
  | case5 spare name targets ih =>
    have hrest : (values.drop restSize).length = need restSize spare targets := by
      rw [List.length_drop]
      omega
    obtain ⟨dealt, hfst, hdeals, hdeal⟩ := ih hrest
    refine ⟨(.rest name, .list (values.take restSize)) :: dealt, ?_, ?_, ?_⟩
    · simp only [List.map_cons, filled, hfst]
    · have hcons := Deals.cons (.rest name (values.take restSize)) hdeals
      rwa [List.take_append_drop] at hcons
    · simp only [List.map_cons, Target.entry, Scatter.deal, hdeal]
      rfl

/-! ## Whole lists -/

theorem distribute_misfit (h : Misfits targets values) :
    Scatter.distribute (scatterShape targets) values = .error (.withMessage .arity
      ("scatter expected " ++ toString (targets.countP Target.isRequired) ++ " to " ++
        toString targets.length ++ " values, got " ++ toString values.length)) := by
  have hrest := scatterShape_rest targets
  have hlength := length_eq_counts targets
  have hentries : (scatterShape targets).entries.length = targets.length := List.length_map ..
  simp only [Scatter.distribute, scatterShape_required, hentries]
  rw [if_pos]
  rcases h with h | ⟨hnone, h⟩
  · exact .inl h
  · refine .inr ⟨?_, by omega⟩
    rw [Bool.not_eq_true']
    exact Bool.eq_false_iff.mpr fun hhas => by have := hrest.mp hhas; omega

/-- A list that fits is dealt out in full, so that the checks made while it is dealt are never the
ones that fail. -/
theorem distribute_fit (hone : countRests targets ≤ 1) (h : ¬Misfits targets values) :
    ∃ dealt, dealt.map Prod.fst = filled (values.length - targets.countP Target.isRequired) targets ∧
      Deals dealt values ∧ Scatter.distribute (scatterShape targets) values =
        .ok ⟨dealt.map fun share => (share.1.name, share.2), none⟩ := by
  have hrest := scatterShape_rest targets
  have hlength := length_eq_counts targets
  have hentries : (scatterShape targets).entries.length = targets.length := List.length_map ..
  simp only [Misfits, not_or, not_and, Nat.not_lt] at h
  simp only [Scatter.distribute, scatterShape_required, hentries]
  rw [if_neg (by
    rintro (hshort | ⟨hnone, hlong⟩)
    · omega
    · have hzero : ¬0 < countRests targets := fun hpos => by simp [hrest.mpr hpos] at hnone
      have := h.2 (by omega)
      omega)]
  refine deal_filled ?_
  by_cases hhas : 0 < countRests targets
  · -- The rest target takes what is left when all optional ones have taken theirs.
    have hsingle : countRests targets = 1 := by omega
    simp only [hrest.mpr hhas, true_and, need_eq, hsingle]
    split <;> omega
  · have hzero : countRests targets = 0 := by omega
    have := h.2 hzero
    simp only [need_eq, hzero]
    omega

/-! ## Setting variables -/

theorem setAll_deal (dealt : List (Target × Value)) (w : World) :
    Eval.setAll (dealt.map fun share => (share.1.name, share.2)) env w =
      some (.ok (), env.deal dealt, w) := by
  rw [setAll_eq, List.foldl_map]
  rfl

/-- A variable that is no target keeps its value. -/
theorem Env.deal_other {x : Name} {dealt : List (Target × Value)}
    (h : ∀ share ∈ dealt, share.1.name ≠ x) :
    (env.deal dealt)[x.slot.toNat]? = env[x.slot.toNat]? := by
  induction dealt generalizing env with
  | nil => rfl
  | cons share dealt ih =>
    have hne : share.1.name.slot.toNat ≠ x.slot.toNat := fun heq =>
      h share List.mem_cons_self (congrArg Name.mk (UInt16.toNat_inj.mp heq))
    rw [show env.deal (share :: dealt) = Env.deal _ dealt from rfl,
      ih fun other hother => h other (List.mem_cons_of_mem _ hother),
      Array.getElem?_setIfInBounds_ne hne]

theorem Env.deal_size (dealt : List (Target × Value)) : (env.deal dealt).size = env.size := by
  induction dealt generalizing env with
  | nil => rfl
  | cons share dealt ih => exact ih.trans Array.size_setIfInBounds

/-- A variable has the value that was dealt to its last target. -/
theorem Env.deal_last {before after : List (Target × Value)} {target : Target} {v : Value}
    (hslot : target.name.slot.toNat < env.size) (h : ∀ share ∈ after, share.1.name ≠ target.name) :
    (env.deal (before ++ (target, v) :: after))[target.name.slot.toNat]? = some (some v) := by
  have hsplit : env.deal (before ++ (target, v) :: after) =
      Env.deal ((env.deal before).setIfInBounds target.name.slot.toNat (some v)) after := by
    simp only [Env.deal, List.foldl_append, List.foldl_cons]
  rw [hsplit, Env.deal_other h, Array.getElem?_setIfInBounds_self_of_lt]
  rwa [Env.deal_size]

/-- The defaults that are evaluated are those of the optional targets that take nothing. -/
theorem evalDefaults_eq (s : Scene) :
    evalDefaults s taken targets = setDefaults s (defaultsAfter taken targets) := by
  induction targets generalizing taken with
  | nil => simp [evalDefaults, defaultsAfter, optionals, setDefaults]
  | cons target targets ih =>
    cases target with
    | required name => exact ih
    | rest name => exact ih
    | optional name default =>
      cases taken with
      | zero =>
        cases default with
        | none => exact ih
        | some e => simp only [evalDefaults, ih]; rfl
      | succ taken => cases default <;> exact ih

/-! ## Scattering assignments -/

variable {C : Value → Prop} {s : Scene} {p : Program}

/-- No variable loses its slot while an expression is evaluated. -/
theorem eval_size (hs : s.names = p.names) {e : Expr} (he : e.All C (Slotted p)) {i j : Nat}
    (hat : Expr.At p e i j) {env env' : Env} {w w' : World} {v : Value}
    (henv : p.names.width ≤ env.size) (h : e.eval s env w = some (.ok v, env', w')) :
    env'.size = env.size := by
  have hmeets := expr_sim hs e he hat [] env w
    (.running (frame p i [] [] [] .null env) w) henv ⟨.null, rfl⟩
  rw [h] at hmeets
  exact hmeets.1

/-- The code of a scattering assignment with at most one rest target runs as its evaluation goes.
When its source has given a list, a list that does not fit is refused, and no variable is set.
Any other list is dealt out in full: to the rest target and the required ones, and to the leftmost
optional ones, as many as there are elements to spare.  Then the defaults of the other optional
targets are evaluated and set, from the left, and the list is the value. -/
theorem scatter_deals (hs : s.names = p.names) {targets : List Target} {source : Expr}
    (hall : (Expr.scatter targets source).All C (Slotted p)) (hone : countRests targets ≤ 1)
    {i j : Nat} (hat : Expr.At p (.scatter targets source) i j) :
    (∀ stack scopes catches, Sim s p stack scopes s.fuel (Here p i stack scopes catches)
      ((Expr.scatter targets source).eval s) fun v => Here p j (v :: stack) scopes catches) ∧
    ∀ (env env₁ : Env) (w w₁ : World) (values : List Value), p.names.width ≤ env.size →
      source.eval s env w = some (.ok (.list values), env₁, w₁) →
      (Misfits targets values → (Expr.scatter targets source).eval s env w =
        some (.error (.raised (.withMessage .arity
          ("scatter expected " ++ toString (targets.countP Target.isRequired) ++ " to " ++
            toString targets.length ++ " values, got " ++ toString values.length))), env₁, w₁)) ∧
      (¬Misfits targets values →
        let spare := values.length - targets.countP Target.isRequired
        (filled spare targets).filter Target.isOptional =
          (targets.filter Target.isOptional).take
            (min (targets.countP Target.isOptional) spare) ∧
        (filled spare targets).filter (!·.isOptional) = targets.filter (!·.isOptional) ∧
        ∃ dealt : List (Target × Value), dealt.map Prod.fst = filled spare targets ∧
          Deals dealt values ∧
          (∀ before target v after, dealt = before ++ (target, v) :: after →
            (∀ share ∈ after, share.1.name ≠ target.name) →
            (env₁.deal dealt)[target.name.slot.toNat]? = some (some v)) ∧
          (∀ x : Name, (∀ target ∈ filled spare targets, target.name ≠ x) →
            (env₁.deal dealt)[x.slot.toNat]? = env₁[x.slot.toNat]?) ∧
          (Expr.scatter targets source).eval s env w = (do
            setDefaults s (defaultsAfter spare targets)
            pure (Value.list values)) (env₁.deal dealt) w₁) := by
  refine ⟨fun stack _ _ => expr_sim hs _ hall hat stack, ?_⟩
  intro env env₁ w w₁ values henv hsource
  have heval : (Expr.scatter targets source).eval s env w = (do
      let shares ← Eval.of (Scatter.distribute (scatterShape targets) values)
      Eval.setAll shares.bound
      evalDefaults s (values.length - (scatterShape targets).requiredCount) targets
      pure (Value.list values)) env₁ w₁ := by
    rw [Expr.eval, Eval.bind_apply, hsource]
  refine ⟨fun hmisfit => ?_, fun hfit => ?_⟩
  · rw [heval, distribute_misfit hmisfit]
    rfl
  · obtain ⟨dealt, hfst, hdeals, hdistribute⟩ := distribute_fit hone hfit
    refine ⟨?_, filled_others, dealt, hfst, hdeals, ?_, ?_, ?_⟩
    · have hcount := List.countP_eq_length_filter (p := Target.isOptional) (l := targets)
      rw [filled_optional, List.take_eq_take_iff]
      omega
    · rintro before target v after rfl hlast
      refine Env.deal_last ?_ hlast
      -- The source leaves every variable its slot, and the targets are variables of the program.
      have hmem : target ∈ filled (values.length - targets.countP Target.isRequired) targets := by
        rw [← hfst, List.map_append]
        exact List.mem_append_right _ List.mem_cons_self
      have hslot : Slotted p target.name := target.entry_name ▸
        hall.1.entries _ (List.mem_map_of_mem (filled_sublist.subset hmem))
      obtain ⟨k, slot, table, hsourceAt, -⟩ := hat
      rw [eval_size hs hall.2 hsourceAt henv hsource]
      exact Nat.lt_of_lt_of_le hslot henv
    · intro x hx
      refine Env.deal_other fun share hshare => hx share.1 ?_
      exact hfst ▸ List.mem_map_of_mem hshare
    · rw [heval, hdistribute, scatterShape_required, evalDefaults_eq]
      show (Eval.setAll _ >>= _) env₁ w₁ = _
      rw [Eval.bind_apply, setAll_deal]

/-- The targets of `{?a = 2, b, ?c, @d}`. -/
def spreadTargets : List Target :=
  [.optional ⟨6⟩ (some (.value (.int 2))), .required ⟨7⟩, .optional ⟨8⟩ none, .rest ⟨9⟩]

/-- The script `{?a = 2, b, ?c, @d} = {7};`. -/
def spreading : SyntaxTree where
  statements := [.mk 1 1 (.expr (.scatter spreadTargets (.list [.item (.value (.int 7))])))]
  names := ⟨Names.initial.texts ++ #["a", "b", "c", "d"]⟩

theorem spreading_sound : spreading.Sound := by
  refine ⟨Spelled, distinct_spelled, ?_⟩
  simp only [spreading, spreadTargets, Stmt.AllIn, Stmt.All, StmtNode.All, Expr.All, Target.AllIn,
    Arg.AllIn, Spelled]
  decide

/-- The one element goes to the required target.  The rest target takes none, one optional target
gets its default, and the other keeps what it has. -/
theorem scatter_deals_one : ∃ p i j, spreading.compile = .ok p ∧
    Expr.At p (.scatter spreadTargets (.list [.item (.value (.int 7))])) i j ∧
    ∀ (call : Activation) (w : World) (old : Value),
      (Expr.scatter spreadTargets (.list [.item (.value (.int 7))])).eval ⟨p.names, call, 0, 0⟩
        (Array.replicate 8 none ++ #[some old, none]) w =
        some (.ok (.list [.int 7]), Array.replicate 6 none ++
          #[some (.int 2), some (.int 7), some old, some (.list [])], w) := by
  obtain ⟨p, hcompile, hfits⟩ := SyntaxTree.exists_program
    (show (spreading.compile.toOption.any _) = true by decide +kernel)
  have hnames : spreading.names = p.names := SyntaxTree.compile_names hcompile
  obtain ⟨n, ⟨k, ⟨m, hat, -⟩, -⟩, -⟩ := spreading_sound.codeOf hcompile hfits
  obtain ⟨C, -, ⟨hall, -⟩⟩ := spreading_sound
  refine ⟨p, 0, m, hcompile, hat, fun call w old => ?_⟩
  obtain ⟨-, -, dealt, hfst, hdeals, -, -, heval⟩ := ((scatter_deals (s := ⟨p.names, call, 0, 0⟩) rfl
    (hnames ▸ hall) (by decide) hat).2 (Array.replicate 8 none ++ #[some old, none]) _ w w [.int 7]
    (hnames ▸ Nat.le_refl 10) rfl).2 (by simp [Misfits]; decide)
  -- Two targets take something, and the element can only be for the required one.
  obtain ⟨a, b, rfl⟩ : ∃ a b, dealt = [(.required ⟨7⟩, a), (.rest ⟨9⟩, b)] := by
    match dealt, hfst with
    | [(_, a), (_, b)], hfst => cases hfst; exact ⟨a, b, rfl⟩
  obtain ⟨_, rest, hvalues, ⟨⟩, hdeals⟩ := hdeals.uncons
  obtain ⟨rfl, rfl⟩ := List.cons.inj hvalues
  obtain ⟨_, rest, hnone, ⟨⟩, -⟩ := hdeals.uncons
  obtain ⟨rfl, rfl⟩ := List.nil_eq_append_iff.mp hnone
  exact heval

end Lineage.Script
