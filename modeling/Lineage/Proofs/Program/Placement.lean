/-
  Lineage.Proofs.Program.Placement

  The code that the generator makes lies as the layout says.

  By recursion on syntax trees: each case follows the generator part by part and reads
  off what the program has for every part.
-/
import Lineage.Proofs.Program.Drafting

namespace Lineage.Draft

open Script

variable {C : Value → Prop} {N : Name → Prop}

/-! ## Expressions -/

theorem constant_writes (hC : Distinct C) {v : Value} (hv : C v) (L : Level) (U : List Label) :
    Writes C L U (constant v) (L.up 1) (fun _ => U) fun p _ i j => Expr.At p (.value v) i j := by
  have direct {op : Op} {x : Drafting Unit} (hx : x = emitPush op)
      (hop : ∀ p, Program.Produces p op v) :
      Writes C L U x (L.up 1) (fun _ => U) fun p _ i j => Expr.At p (.value v) i j := by
    subst hx
    refine (emitPush_writes op).imp ?_
    rintro p _ i j ⟨hi, hj⟩
    simp only [Expr.At]
    exact ⟨op, hi, hop p, hj⟩
  have pooled (hx : constant v = (do emitPush (.pushLiteral (← literal v)))) :
      Writes C L U (constant v) (L.up 1) (fun _ => U) fun p _ i j => Expr.At p (.value v) i j := by
    rw [hx]
    refine ((literal_writes hC hv).bind fun l => emitPush_writes _).imp ?_
    rintro p _ i j ⟨l, k, ⟨hl, rfl⟩, hi, hj⟩
    simp only [Expr.At]
    exact ⟨_, hi, .literal hl, hj⟩
  cases v with
  | null => exact direct rfl fun _ => .null
  | obj id => exact direct rfl fun _ => .obj id
  | int n => exact direct rfl fun _ => .int n
  | float x => exact direct rfl fun _ => .float x
  | _ => exact pooled rfl

/-- How many values an assignment keeps under the new one. -/
def operandCount : Expr → Nat
  | .index base _ => operandCount base + 2
  | .prop _ _ => 2
  | _ => 0

/-- Level `L` with `n` more values, one at a time. -/
theorem Level.up_up (L : Level) (m n : Nat) : (L.up m).up n = L.up (m + n) := by
  simp only [Level.up, Nat.add_assoc]

theorem putBack_writes (target : Expr) (L : Level) (U : List Label) :
    Writes C (L.up (operandCount target + 1)) U (putBack target) (L.up 1) (fun _ => U)
      fun p _ i j => PutBackAt p target i j := by
  cases target with
  | index base index =>
    have hset : Writes C (L.up (operandCount (.index base index) + 1)) U (emitTake .indexSet 2)
        (L.up (operandCount base + 1)) (fun _ => U) fun p _ i j =>
          p.ops[i]? = some .indexSet ∧ j = i + 1 := by
      have h := emitTake_writes (C := C) (L := L.up (operandCount base + 1)) (U := U) .indexSet 2
      rwa [Level.up_up] at h
    refine (hset.bind fun _ => putBack_writes base L U).imp ?_
    rintro p _ i j ⟨_, k, ⟨hi, rfl⟩, hj⟩
    exact ⟨hi, hj⟩
  | var name => exact (emit_writes _).imp fun _ _ _ _ h => h
  | prop object property =>
    have h := emitTake_writes (C := C) (L := L.up 1) (U := U) .putProp 2
    rw [Level.up_up] at h
    exact h.imp fun _ _ _ _ h => h
  | _ => exact .throw

/-! ## New labels -/

/-- Labels that are new beside others: each is there once, and none is among the others. -/
structure Fresh (labels U : List Label) : Prop where
  nodup : labels.Nodup
  apart : ∀ l ∈ labels, l ∉ U

namespace Fresh

variable {label other : Label} {labels U : List Label}

theorem nil : Fresh [] U where
  nodup := .nil
  apart := fun _ hl => absurd hl List.not_mem_nil

theorem cons (hlabel : label ∉ U) (h : Fresh labels (label :: U)) : Fresh (label :: labels) U where
  nodup := List.nodup_cons.mpr ⟨fun hmem => h.apart label hmem List.mem_cons_self, h.nodup⟩
  apart := by
    intro l hl hmem
    rcases List.mem_cons.mp hl with rfl | hl
    · exact hlabel hmem
    · exact h.apart l hl (List.mem_cons_of_mem _ hmem)

theorem head (h : Fresh (label :: labels) U) : label ∉ labels ++ U := by
  rw [List.mem_append, not_or]
  exact ⟨(List.nodup_cons.mp h.nodup).1, h.apart label List.mem_cons_self⟩

theorem tail (h : Fresh (label :: labels) U) : Fresh labels U where
  nodup := (List.nodup_cons.mp h.nodup).2
  apart := fun l hl => h.apart l (List.mem_cons_of_mem _ hl)

/-- One more new label is new beside the others, and they are beside it. -/
theorem beside (h : Fresh labels U) (hother : other ∉ labels ++ U) :
    Fresh labels (other :: U) ∧ other ∉ U := by
  obtain ⟨hne, hother⟩ := not_or.mp (mt List.mem_append.mpr hother)
  refine ⟨⟨h.nodup, fun l hl hmem => ?_⟩, hother⟩
  rcases List.mem_cons.mp hmem with rfl | hmem
  · exact hne hl
  · exact h.apart l hl hmem

/-- The same for a single label. -/
theorem pair (hlabel : label ∉ U) (hother : other ∉ label :: U) : label ∉ other :: U ∧ other ∉ U := by
  obtain ⟨h, hother⟩ := (cons hlabel nil : Fresh [label] U).beside hother
  exact ⟨h.apart label List.mem_cons_self, hother⟩

end Fresh

/-! ## Scattering assignments -/

/-- The labels of the defaults in a table. -/
def defaultLabels : List ScatterEntry → List Label
  | [] => []
  | .optional _ (some label) :: rest => label :: defaultLabels rest
  | _ :: rest => defaultLabels rest

/-- The entries of a table are those for the targets of an assignment. -/
def Fills : List Target → List ScatterEntry → Prop
  | [], entries => entries = []
  | .required name :: targets, entries => ∃ rest, entries = .required name :: rest ∧ Fills targets rest
  | .rest name :: targets, entries => ∃ rest, entries = .rest name :: rest ∧ Fills targets rest
  | .optional name none :: targets, entries =>
      ∃ rest, entries = .optional name none :: rest ∧ Fills targets rest
  | .optional name (some _) :: targets, entries =>
      ∃ label rest, entries = .optional name (some label) :: rest ∧ Fills targets rest

theorem scatterEntries_fills {targets : List Target} {entries : List ScatterEntry}
    (h : ∃ d d', scatterEntries targets d = .ok (entries, d')) : Fills targets entries := by
  have cons {targets : List Target} {entry : ScatterEntry} {entries : List ScatterEntry}
      {d d' : Draft}
      (h : (scatterEntries targets >>= fun rest => pure (entry :: rest)) d = .ok (entries, d')) :
      ∃ rest d₁, entries = entry :: rest ∧ scatterEntries targets d = .ok (rest, d₁) := by
    obtain ⟨rest, d₁, hrest, h⟩ := run_bind h
    cases h
    exact ⟨rest, _, rfl, hrest⟩
  induction targets generalizing entries with
  | nil =>
    obtain ⟨_, _, h⟩ := h
    cases h
    rfl
  | cons target targets ih =>
    obtain ⟨_, _, h⟩ := h
    cases target with
    | required name =>
      simp only [scatterEntries, pure_bind] at h
      obtain ⟨rest, d₁, rfl, hrest⟩ := cons h
      exact ⟨rest, rfl, ih ⟨_, _, hrest⟩⟩
    | rest name =>
      simp only [scatterEntries, pure_bind] at h
      obtain ⟨rest, d₁, rfl, hrest⟩ := cons h
      exact ⟨rest, rfl, ih ⟨_, _, hrest⟩⟩
    | optional name default =>
      cases default with
      | none =>
        simp only [scatterEntries, pure_bind] at h
        obtain ⟨rest, d₁, rfl, hrest⟩ := cons h
        exact ⟨rest, rfl, ih ⟨_, _, hrest⟩⟩
      | some e =>
        simp only [scatterEntries, pure_bind] at h
        obtain ⟨label, d₁, -, h⟩ := run_bind h
        obtain ⟨rest, d₂, rfl, hrest⟩ := cons h
        exact ⟨label, rest, rfl, ih ⟨_, _, hrest⟩⟩

/-- Every default gets a label of its own. -/
theorem scatterEntries_writes (targets : List Target) (L : Level) (U : List Label) :
    Writes C L U (scatterEntries targets) L (fun entries => defaultLabels entries ++ U)
      fun _ entries i j => Fresh (defaultLabels entries) U ∧ j = i := by
  induction targets generalizing U with
  | nil =>
    refine (Writes.pure _ [] (by intro l; rfl)).imp ?_
    rintro p entries i j ⟨rfl, rfl⟩
    exact ⟨.nil, rfl⟩
  | cons target targets ih =>
    have unlabelled {entry : ScatterEntry}
        (hentry : ∀ rest, defaultLabels (entry :: rest) = defaultLabels rest) :
        Writes C L U (scatterEntries targets >>= fun rest => pure (entry :: rest)) L
          (fun entries => defaultLabels entries ++ U) fun _ entries i j =>
            Fresh (defaultLabels entries) U ∧ j = i := by
      refine ((ih U).bind fun rest =>
        Writes.pure _ (entry :: rest) fun l => by rw [hentry]).imp ?_
      rintro p _ i j ⟨rest, _, ⟨hfresh, rfl⟩, rfl, rfl⟩
      rw [hentry]
      exact ⟨hfresh, rfl⟩
    cases target with
    | required name => simp only [scatterEntries, pure_bind]; exact unlabelled fun _ => rfl
    | rest name => simp only [scatterEntries, pure_bind]; exact unlabelled fun _ => rfl
    | optional name default =>
      cases default with
      | none => simp only [scatterEntries, pure_bind]; exact unlabelled fun _ => rfl
      | some e =>
        simp only [scatterEntries, pure_bind]
        refine ((newLabel_writes none).bind fun label => (ih (label :: U)).bind fun rest =>
          Writes.pure _ (.optional name (some label) :: rest) fun l => ?_).imp ?_
        · simp only [defaultLabels, List.mem_append, List.mem_cons]
          rw [or_left_comm, or_assoc]
        · rintro p _ i j ⟨label, _, ⟨hnew, rfl⟩, rest, _, ⟨hfresh, rfl⟩, rfl, rfl⟩
          exact ⟨hfresh.cons hnew, rfl⟩

mutual

theorem expr_writes (hC : Distinct C) (e : Expr) (he : e.All C N) (L : Level) (U : List Label) :
    Writes C L U (expr e) (L.up 1) (fun _ => U) fun p _ i j => Expr.At p e i j := by
  cases e with
  | value v => simpa only [expr] using constant_writes hC he L U
  | var name =>
    simp only [expr]
    exact (emitPush_writes _).imp fun _ _ _ _ h => by simpa only [Expr.At] using h
  | and left right =>
    simp only [expr]
    refine ((expr_writes hC left he.1 L U).bind fun _ => (newLabel_writes none).bind fun done =>
      (emitTake_writes _ 1).bind fun _ => (expr_writes hC right he.2 L (done :: U)).bind fun _ =>
      place_writes done U fun x => List.mem_cons).imp ?_
    rintro p _ i j ⟨_, _, hl, done, k, ⟨hnew, rfl⟩, _, _, ⟨hop, rfl⟩, _, _, hr, rfl, ht⟩
    simp only [Expr.At]
    exact ⟨k, done, hl, hop, hr, ht hnew⟩
  | or left right =>
    simp only [expr]
    refine ((expr_writes hC left he.1 L U).bind fun _ => (newLabel_writes none).bind fun done =>
      (emitTake_writes _ 1).bind fun _ => (expr_writes hC right he.2 L (done :: U)).bind fun _ =>
      place_writes done U fun x => List.mem_cons).imp ?_
    rintro p _ i j ⟨_, _, hl, done, k, ⟨hnew, rfl⟩, _, _, ⟨hop, rfl⟩, _, _, hr, rfl, ht⟩
    simp only [Expr.At]
    exact ⟨k, done, hl, hop, hr, ht hnew⟩
  | binary op left right =>
    simp only [expr]
    refine ((expr_writes hC left he.1 L U).bind fun _ => (expr_writes hC right he.2 (L.up 1) U).bind
      fun _ => emitTake_writes _ 1).imp ?_
    rintro p _ i j ⟨_, k, hl, _, m, hr, hop, hj⟩
    simp only [Expr.At]
    exact ⟨k, m, hl, hr, hop, hj⟩
  | unary op operand =>
    cases op with
    | neg =>
      simp only [expr]
      refine ((expr_writes hC operand he L U).bind fun _ => emit_writes _).imp ?_
      rintro p _ i j ⟨_, k, ho, hop, hj⟩
      simp only [Expr.At]
      exact ⟨k, ho, hop, hj⟩
    | not =>
      simp only [expr]
      refine ((expr_writes hC operand he L U).bind fun _ => emit_writes _).imp ?_
      rintro p _ i j ⟨_, k, ho, hop, hj⟩
      simp only [Expr.At]
      exact ⟨k, ho, hop, hj⟩
  | index base index =>
    simp only [expr]
    refine ((expr_writes hC base he.1 L U).bind fun _ => (expr_writes hC index he.2 (L.up 1) U).bind
      fun _ => emitTake_writes _ 1).imp ?_
    rintro p _ i j ⟨_, k, hl, _, m, hr, hop, hj⟩
    simp only [Expr.At]
    exact ⟨k, m, hl, hr, hop, hj⟩
  | range base first last =>
    simp only [expr]
    refine ((expr_writes hC base he.1 L U).bind fun _ =>
      (expr_writes hC first he.2.1 (L.up 1) U).bind fun _ =>
      (expr_writes hC last he.2.2 ((L.up 1).up 1) U).bind fun _ =>
      emitTake_writes (L := L.up 1) _ 2).imp ?_
    rintro p _ i j ⟨_, k, hb, _, m, hf, _, n, hl, hop, hj⟩
    simp only [Expr.At]
    exact ⟨k, m, n, hb, hf, hl, hop, hj⟩
  | prop object property =>
    simp only [expr]
    refine ((expr_writes hC object he.1 L U).bind fun _ =>
      (expr_writes hC property he.2 (L.up 1) U).bind fun _ => emitTake_writes _ 1).imp ?_
    rintro p _ i j ⟨_, k, hl, _, m, hr, hop, hj⟩
    simp only [Expr.At]
    exact ⟨k, m, hl, hr, hop, hj⟩
  | call function args =>
    simp only [expr]
    cases hf : Builtin.find? function with
    | none => exact .throw
    | some f =>
      refine ((arguments_writes hC args he L U).bind fun _ => emit_writes _).imp ?_
      rintro p _ i j ⟨_, k, ha, hop, hj⟩
      simp only [Expr.At]
      exact ⟨f, k, hf, ha, hop, hj⟩
  | verb object name args =>
    simp only [expr]
    refine ((expr_writes hC object he.1 L U).bind fun _ =>
      (expr_writes hC name he.2.1 (L.up 1) U).bind fun _ =>
      (arguments_writes hC args he.2.2 ((L.up 1).up 1) U).bind fun _ =>
      emitTake_writes (L := L.up 1) _ 2).imp ?_
    rintro p _ i j ⟨_, k, hb, _, m, hf, _, n, hl, hop, hj⟩
    simp only [Expr.At]
    exact ⟨k, m, n, hb, hf, hl, hop, hj⟩
  | cond condition consequence alternative =>
    simp only [expr]
    refine ((expr_writes hC condition he.1 L U).bind fun _ =>
      (newLabel_writes none).bind fun otherwise => (emitTake_writes _ 1).bind fun _ =>
      (expr_writes hC consequence he.2.1 L (otherwise :: U)).bind fun _ =>
      (newLabel_writes none).bind fun done => (emitTake_writes _ 1).bind fun _ =>
      (place_writes otherwise (done :: U) fun x => by
        simp only [List.mem_cons]; exact or_left_comm).bind fun _ =>
      (expr_writes hC alternative he.2.2 L (done :: U)).bind fun _ =>
      place_writes done U fun x => List.mem_cons).imp ?_
    rintro p _ i j ⟨_, _, hcond, otherwise, k, ⟨hnew, rfl⟩, _, _, ⟨hchoose, rfl⟩, _, _, hcons, done,
      m, ⟨hdone, rfl⟩, _, _, ⟨hjump, rfl⟩, _, _, ⟨rfl, hother⟩, _, _, halt, rfl, ht⟩
    -- The second label is made while the first is still to be placed, so they differ.
    obtain ⟨hnew, hdone⟩ := Fresh.pair hnew hdone
    simp only [Expr.At]
    exact ⟨k, m, otherwise, done, hcond, hchoose, hcons, hjump, hother hnew, halt, ht hdone⟩
  | list items =>
    simp only [expr]
    exact (arguments_writes hC items he L U).imp fun _ _ _ _ h => by simpa only [Expr.At] using h
  | map items =>
    simp only [expr]
    refine ((emitPush_writes _).bind fun _ => entries_writes hC items he L U).imp ?_
    rintro p _ i j ⟨_, _, ⟨hop, rfl⟩, he⟩
    simp only [Expr.At]
    exact ⟨hop, he⟩
  | scatter targets source =>
    simp only [expr]
    refine ((expr_writes hC source he.2 L U).bind fun _ =>
      -- The labels of the defaults are made together, with the table, and placed one by one after
      -- it.
      (scatterEntries_writes targets (L.up 1) U).bind_of fun table htable =>
      (newLabel_writes none).bind fun done => (scatterTable_writes ⟨table, done⟩).bind fun slot =>
      (emit_writes _).bind fun _ =>
      ((defaults_writes hC targets he.1 table (L.up 1) (done :: U)
        (scatterEntries_fills htable)).reorder fun l => by
          simp only [List.mem_append, List.mem_cons]; exact or_left_comm).bind fun _ =>
      place_writes done U fun x => List.mem_cons).imp ?_
    rintro p _ i j ⟨_, _, hsource, table, _, ⟨hfresh, rfl⟩, done, _, ⟨hdone, rfl⟩, slot, k,
      ⟨htable, rfl⟩, _, _, ⟨hop, rfl⟩, _, _, hdefaults, rfl, ht⟩
    obtain ⟨hfresh, hdone⟩ := hfresh.beside hdone
    simp only [Expr.At]
    exact ⟨k, slot, _, hsource, hop, htable, hdefaults hfresh, ht hdone⟩
  | assign target value =>
    simp only [expr]
    cases target with
    | index base index =>
      simp only [isIndexed, if_true]
      refine ((location_writes hC false (.index base index) he.1 L U).bind fun _ =>
        (expr_writes hC value he.2 _ U).bind fun _ => (emit_writes _).bind fun _ =>
        (putBack_writes (.index base index) L U).bind fun _ => (emit_writes _).bind fun _ =>
        emit_writes _).imp ?_
      rintro p _ i j ⟨_, k, hloc, _, m, hval, _, _, ⟨hkeep, rfl⟩, _, n, hput, _, _, ⟨hpop, rfl⟩,
        hpush, rfl⟩
      simp only [Expr.At, isIndexed, if_true]
      exact ⟨k, m, hloc, hval, n, hkeep, hput, hpop, hpush, rfl⟩
    | _ =>
      simp only [isIndexed, Bool.false_eq_true, if_false]
      refine ((location_writes hC false _ he.1 L U).bind fun _ =>
        (expr_writes hC value he.2 _ U).bind fun _ => (putBack_writes _ L U).bind fun _ =>
        Writes.nothing).imp ?_
      rintro p _ i j ⟨_, k, hloc, _, m, hval, _, _, hput, rfl⟩
      simp only [Expr.At, isIndexed, Bool.false_eq_true, if_false]
      exact ⟨k, m, hloc, hval, hput⟩

theorem location_writes (hC : Distinct C) (inner : Bool) (target : Expr) (ht : target.All C N)
    (L : Level) (U : List Label) :
    Writes C L U (location inner target) (L.up (operandCount target + inner.toNat)) (fun _ => U)
      fun p _ i j => LocationAt p inner target i j := by
  cases target with
  | index base index =>
    simp only [location]
    cases inner with
    | false =>
      refine ((location_writes hC true base ht.1 L U).bind fun _ =>
        (expr_writes hC index ht.2 _ U).bind fun _ => Writes.nothing).imp ?_
      rintro p _ i j ⟨_, k, hbase, _, m, hindex, rfl⟩
      simp only [LocationAt, Bool.false_eq_true, if_false]
      exact ⟨k, _, hbase, hindex, rfl⟩
    | true =>
      refine ((location_writes hC true base ht.1 L U).bind fun _ =>
        (expr_writes hC index ht.2 _ U).bind fun _ => emitPush_writes _).imp ?_
      rintro p _ i j ⟨_, k, hbase, _, m, hindex, hop, rfl⟩
      simp only [LocationAt, if_true]
      exact ⟨k, m, hbase, hindex, hop, rfl⟩
  | var name =>
    simp only [location]
    cases inner with
    | false =>
      refine Writes.nothing.imp ?_
      rintro p _ i j rfl
      simp only [LocationAt, Bool.false_eq_true, if_false]
    | true =>
      refine (emitPush_writes _).imp ?_
      rintro p _ i j hop
      simpa only [LocationAt, if_true] using hop
  | prop object property =>
    simp only [location]
    cases inner with
    | false =>
      refine ((expr_writes hC object ht.1 L U).bind fun _ =>
        (expr_writes hC property ht.2 (L.up 1) U).bind fun _ =>
        Writes.nothing).imp ?_
      rintro p _ i j ⟨_, k, hobject, _, m, hproperty, rfl⟩
      simp only [LocationAt, Bool.false_eq_true, if_false]
      exact ⟨k, _, hobject, hproperty, rfl⟩
    | true =>
      refine ((expr_writes hC object ht.1 L U).bind fun _ =>
        (expr_writes hC property ht.2 (L.up 1) U).bind fun _ => emitPush_writes _).imp ?_
      rintro p _ i j ⟨_, k, hobject, _, m, hproperty, hop, rfl⟩
      simp only [LocationAt, if_true]
      exact ⟨k, m, hobject, hproperty, hop, rfl⟩
  | _ => simp only [location]; exact .throw

theorem arguments_writes (hC : Distinct C) (args : List Arg) (h : Arg.AllIn C N args) (L : Level)
    (U : List Label) :
    Writes C L U (arguments args) (L.up 1) (fun _ => U) fun p _ i j => ArgsAt p args i j := by
  match args with
  | [] =>
    simp only [arguments]
    exact (emitPush_writes _).imp fun _ _ _ _ h => by simpa only [ArgsAt] using h
  | .item e :: rest =>
    simp only [arguments]
    refine ((expr_writes hC e h.1 L U).bind fun _ => (emit_writes _).bind fun _ =>
      moreArguments_writes hC rest h.2 L U).imp ?_
    rintro p _ i j ⟨_, k, he, _, _, ⟨hop, rfl⟩, hrest⟩
    simp only [ArgsAt]
    exact ⟨k, he, hop, hrest⟩
  | .splice e :: rest =>
    simp only [arguments]
    refine ((expr_writes hC e h.1 L U).bind fun _ => (emit_writes _).bind fun _ =>
      moreArguments_writes hC rest h.2 L U).imp ?_
    rintro p _ i j ⟨_, k, he, _, _, ⟨hop, rfl⟩, hrest⟩
    simp only [ArgsAt]
    exact ⟨k, he, hop, hrest⟩

theorem moreArguments_writes (hC : Distinct C) (args : List Arg) (h : Arg.AllIn C N args)
    (L : Level) (U : List Label) :
    Writes C (L.up 1) U (moreArguments args) (L.up 1) (fun _ => U) fun p _ i j =>
      MoreArgsAt p args i j := by
  match args with
  | [] =>
    simp only [moreArguments]
    exact Writes.nothing.imp fun _ _ _ _ h => by simpa only [MoreArgsAt] using h
  | .item e :: rest =>
    simp only [moreArguments]
    refine ((expr_writes hC e h.1 (L.up 1) U).bind fun _ => (emitTake_writes _ 1).bind fun _ =>
      moreArguments_writes hC rest h.2 L U).imp ?_
    rintro p _ i j ⟨_, k, he, _, _, ⟨hop, rfl⟩, hrest⟩
    simp only [MoreArgsAt]
    exact ⟨k, he, hop, hrest⟩
  | .splice e :: rest =>
    simp only [moreArguments]
    refine ((expr_writes hC e h.1 (L.up 1) U).bind fun _ => (emitTake_writes _ 1).bind fun _ =>
      moreArguments_writes hC rest h.2 L U).imp ?_
    rintro p _ i j ⟨_, k, he, _, _, ⟨hop, rfl⟩, hrest⟩
    simp only [MoreArgsAt]
    exact ⟨k, he, hop, hrest⟩

theorem entries_writes (hC : Distinct C) (items : List (Expr × Expr)) (h : Expr.AllIn C N items)
    (L : Level) (U : List Label) :
    Writes C (L.up 1) U (entries items) (L.up 1) (fun _ => U) fun p _ i j =>
      EntriesAt p items i j := by
  match items with
  | [] =>
    simp only [entries]
    exact Writes.nothing.imp fun _ _ _ _ h => by simpa only [EntriesAt] using h
  | (key, value) :: rest =>
    simp only [entries]
    refine ((expr_writes hC key h.1 (L.up 1) U).bind fun _ =>
      (expr_writes hC value h.2.1 ((L.up 1).up 1) U).bind fun _ =>
      (emitTake_writes (L := L.up 1) _ 2).bind fun _ => entries_writes hC rest h.2.2 L U).imp ?_
    rintro p _ i j ⟨_, k, hkey, _, m, hvalue, _, _, ⟨hop, rfl⟩, hrest⟩
    simp only [EntriesAt]
    exact ⟨k, m, hkey, hvalue, hop, hrest⟩

theorem defaults_writes (hC : Distinct C) (targets : List Target) (h : Target.AllIn C N targets)
    (table : List ScatterEntry) (L : Level) (U : List Label) (hfills : Fills targets table) :
    Writes C L (defaultLabels table ++ U) (defaults targets table) L (fun _ => U) fun p _ i j =>
      Fresh (defaultLabels table) U → DefaultsAt p targets table i j := by
  match targets with
  | [] =>
    obtain rfl := hfills
    simp only [defaults]
    refine Writes.nothing.imp ?_
    rintro p _ i j rfl -
    simp only [DefaultsAt, and_self]
  | .required name :: targets =>
    obtain ⟨rest, rfl, hrest⟩ := hfills
    simp only [defaults, defaultLabels]
    refine (defaults_writes hC targets h.2 rest L U hrest).imp ?_
    intro p _ i j hat hfresh
    simp only [DefaultsAt]
    exact ⟨rest, rfl, hat hfresh⟩
  | .rest name :: targets =>
    obtain ⟨rest, rfl, hrest⟩ := hfills
    simp only [defaults, defaultLabels]
    refine (defaults_writes hC targets h.2 rest L U hrest).imp ?_
    intro p _ i j hat hfresh
    simp only [DefaultsAt]
    exact ⟨rest, rfl, hat hfresh⟩
  | .optional name none :: targets =>
    obtain ⟨rest, rfl, hrest⟩ := hfills
    simp only [defaults, defaultLabels]
    refine (defaults_writes hC targets h.2 rest L U hrest).imp ?_
    intro p _ i j hat hfresh
    simp only [DefaultsAt]
    exact ⟨rest, rfl, hat hfresh⟩
  | .optional name (some e) :: targets =>
    obtain ⟨label, rest, rfl, hrest⟩ := hfills
    simp only [defaults, defaultLabels, List.cons_append]
    refine ((place_writes label (defaultLabels rest ++ U)
      fun x => List.mem_cons).bind fun _ => (expr_writes hC e h.2.1 L _).bind fun _ =>
      (emit_writes _).bind fun _ => (emitTake_writes _ 1).bind fun _ =>
      defaults_writes hC targets h.2.2 rest L U hrest).imp ?_
    rintro p _ i j ⟨_, _, ⟨rfl, ht⟩, _, k, he, _, _, ⟨hstore, rfl⟩, _, _, ⟨hpop, rfl⟩, hat⟩ hfresh
    simp only [DefaultsAt]
    exact ⟨label, rest, k, rfl, ht hfresh.head, he, hstore, hpop, hat hfresh.tail⟩

end

end Lineage.Draft
