/-
  Lineage.Proofs.Program.StatementPlacement

  The code of statements lies as the layout says, and so does that of a script.

  The site of a statement is what the draft knew of the code around it (`Level`), with
  the labels of the innermost loop replaced by the places that they lead to in the
  program (`Matches`).
-/
import Lineage.Machine.Basic
import Lineage.Proofs.Program.Placement

namespace Lineage.Draft

open Script

variable {C : Value → Prop} {N : Name → Prop}

/-- The level of the body of a loop that keeps `kept` values on the stack. -/
def Level.inLoop (L : Level) (kept : Nat) (top finish : Label) : Level where
  height := L.height + kept
  loops := ⟨top, L.height + kept, finish, L.height, L.scopes⟩ :: L.loops
  scopes := L.scopes

/-- The level of the body of a `try` statement. -/
def Level.inTry (L : Level) : Level := { L with scopes := L.scopes + 1 }

/-- A site is what the draft knew. -/
structure Matches (p : Program) (s : Site) (L : Level) : Prop where
  height : s.height = L.height
  scopes : s.scopes = L.scopes
  loop : ∀ exits, L.loops.head? = some exits → ∃ loop, s.loop = some loop ∧
    p.target exits.continueTo = some loop.continueAt ∧ exits.continueHeight = loop.continueHeight ∧
    p.target exits.breakTo = some loop.breakAt ∧ exits.breakHeight = loop.breakHeight ∧
    exits.scopes = loop.scopes

/-! ## Parts of statements -/

section

variable {L : Level} {U : List Label}

/-- The jump out of a loop. -/
theorem leaveLoop_eq (word : String) (height : LoopExits → Nat) (target : LoopExits → Label) (d : Draft) :
    leaveLoop word height target d = (match d.loops with
      | [] => (throw (CompileError.exitOutsideLoop word) : Drafting Unit)
      | exits :: _ => emit (.exit (UInt16.ofNat (height exits)) (target exits)
          (UInt16.ofNat exits.scopes))) d := rfl

theorem leaveLoop_writes (word : String) (height : LoopExits → Nat) (target : LoopExits → Label)
    (hheight : ∀ d L U, Ready C L U d → ∀ e ∈ L.loops, height e ≤ d.ops.size) :
    Writes C L U (leaveLoop word height target) L (fun _ => U) fun p _ i j =>
      ∃ exits n scopes, L.loops.head? = some exits ∧
        p.ops[i]? = some (.exit n (target exits) scopes) ∧ n.toNat = height exits ∧
        scopes.toNat = exits.scopes ∧ j = i + 1 := by
  intro d a d' hd hrun
  have hloops : d.loops = L.loops := congrArg Level.loops hd.level
  rw [leaveLoop_eq, hloops] at hrun
  cases hl : L.loops with
  | nil => rw [hl] at hrun; cases hrun
  | cons exits rest =>
    rw [hl] at hrun
    obtain ⟨hd', hback⟩ := emit_writes (C := C) (L := L) (U := U) _ d a d' hd hrun
    refine ⟨hd', fun p hp => ?_⟩
    obtain ⟨hp₀, hop, hj⟩ := hback p hp
    have hmem : exits ∈ L.loops := hl ▸ List.mem_cons_self
    have hscopes := (hd.loops exits hmem).2.2
    have hn := hheight d L U hd exits hmem
    have hlt := hp₀.ops_lt
    exact ⟨hp₀, exits, _, _, rfl, hop, UInt16.toNat_ofNat_of_lt' (by omega),
      UInt16.toNat_ofNat_of_lt' (by omega), hj⟩

/-- A `try` body is one scope deeper. -/
theorem enterTry_writes {α : Type} {op : Op} {k : Drafting α} {U₂ : α → List Label} {L₂ : Level}
    {Q : Program → α → Nat → Nat → Prop}
    (hk : Writes C L.inTry U k L₂ U₂ Q) :
    Writes C L U (emit op >>= fun _ =>
        modify (fun d : Draft => { d with scopes := d.scopes + 1 }) >>= fun _ => k) L₂ U₂
      fun p a i j => p.ops[i]? = some op ∧ Q p a (i + 1) j := by
  have henter : Writes C L U (emit op >>= fun _ =>
      modify fun d : Draft => { d with scopes := d.scopes + 1 }) L.inTry (fun _ => U) fun p _ i j =>
        p.ops[i]? = some op ∧ j = i + 1 :=
    .op (fun _ => rfl) (fun _ h => by cases h; rfl) (Nat.le_succ _) rfl (Nat.le_refl _)
  rw [← bind_assoc]
  refine (henter.bind fun _ => hk).imp ?_
  rintro p a i j ⟨_, _, ⟨hop, rfl⟩, hQ⟩
  exact ⟨hop, hQ⟩

theorem leaveTry_writes :
    Writes C L.inTry U (modify fun d : Draft => { d with scopes := d.scopes - 1 }) L (fun _ => U)
      fun _ _ i j => j = i := by
  refine .relevel ?_ (Nat.le_refl _) (Nat.le_succ _) fun _ h => .inl h
  intro d h
  obtain ⟨height, loops, scopes⟩ := L
  obtain ⟨rfl, rfl, hscopes⟩ := Level.mk.inj h
  simp only [hscopes, Nat.add_sub_cancel]

/-- The code that takes the error off the stack when a handler starts. -/
theorem receive_writes {α : Type} (name : Option Name) {k : Drafting α} {U₂ : α → List Label}
    {L₂ : Level} {Q : Program → α → Nat → Nat → Prop} (hk : Writes C L U k L₂ U₂ Q) :
    Writes C L U (do
        adjust (· + 1)
        if let some name := name then emit (.store name)
        emitTake .pop 1
        k) L₂ U₂
      fun p a i j => ∃ m, ReceiveAt p name i m ∧ Q p a m j := by
  have hpop : Writes C L U (adjust (· + 1) >>= fun _ => emitTake .pop 1) L (fun _ => U)
      fun p _ i j => p.ops[i]? = some .pop ∧ j = i + 1 :=
    .op (fun _ => rfl) (fun _ h => by cases h; rfl) (Nat.le_succ _) rfl (Nat.le_succ _)
  cases name with
  | none =>
    simp only []
    rw [← bind_assoc]
    refine (hpop.bind fun _ => hk).imp ?_
    rintro p a i j ⟨_, m, hat, hQ⟩
    exact ⟨m, hat, hQ⟩
  | some name =>
    -- The error is on the stack already when it is stored.
    have hswap : (adjust (· + 1) >>= fun _ => emit (.store name) >>= fun _ => emitTake .pop 1 >>=
        fun _ => k) = (emit (.store name) >>= fun _ => adjust (· + 1) >>= fun _ => emitTake .pop 1 >>=
        fun _ => k) := rfl
    simp only []
    rw [hswap, ← bind_assoc (adjust (· + 1))]
    refine ((emit_writes _).bind fun _ => hpop.bind fun _ => hk).imp ?_
    rintro p a i j ⟨_, _, ⟨hstore, rfl⟩, _, m, ⟨hop, rfl⟩, hQ⟩
    exact ⟨_, ⟨hstore, hop, rfl⟩, hQ⟩

/-- The body of a loop, from its first instruction to the label after it. -/
theorem loopBody_writes (kept : Nat) {top finish : Label} {body : Drafting Unit}
    {Q : Program → Nat → Nat → Prop}
    (hbody : Writes C (L.inLoop kept top finish) (finish :: U) body (L.inLoop kept top finish)
      (fun _ => finish :: U) fun p _ i j => Q p i j) :
    Writes C (L.up kept) (finish :: U) (loopBody top finish kept body) L (fun _ => U) fun p _ i j =>
      ∃ m, Q p i m ∧ p.ops[m]? = some (.jump top) ∧
        (finish ∉ U → p.target finish = some j) ∧ j = m + 1 := by
  have henter : Writes C (L.up kept) (finish :: U) (modify fun d : Draft => { d with
      loops := ⟨top, d.height, finish, d.height - kept, d.scopes⟩ :: d.loops })
      (L.inLoop kept top finish) (fun _ => finish :: U) fun _ _ i j => j = i := by
    refine .relevel ?_ (Nat.le_refl _) (Nat.le_refl _) ?_
    · intro d h
      obtain ⟨height, loops, scopes⟩ := L
      obtain ⟨hheight, rfl, rfl⟩ := Level.mk.inj h
      simp only [Level.inLoop, hheight, Nat.add_sub_cancel]
    · intro e he
      rcases List.mem_cons.mp he with rfl | he
      · exact .inr ⟨Nat.le_refl _, Nat.le_add_right _ _, Nat.le_refl _⟩
      · exact .inl he
  have hleave : Writes C (L.inLoop kept top finish) (finish :: U)
      (modify fun d : Draft => { d with loops := d.loops.tail }) (L.up kept) (fun _ => finish :: U)
      fun _ _ i j => j = i := by
    refine .relevel ?_ (Nat.le_refl _) (Nat.le_refl _) fun _ h => .inl (List.mem_cons_of_mem _ h)
    intro d h
    obtain ⟨hheight, hloops, hscopes⟩ := Level.mk.inj h
    simp only [Level.up, hheight, hloops, hscopes, List.tail_cons]
  simp only [loopBody]
  refine (henter.bind fun _ => hbody.bind fun _ => (emit_writes _).bind fun _ => hleave.bind fun _ =>
    (place_writes finish U fun x => List.mem_cons).bind fun _ =>
    lower_writes kept).imp ?_
  rintro p _ i j ⟨_, _, rfl, _, m, hQ, _, _, ⟨hjump, rfl⟩, _, _, rfl, _, _, ⟨rfl, ht⟩, rfl⟩
  exact ⟨m, hQ, hjump, ht, rfl⟩

end

/-- The body of a loop as its site sees it. -/
theorem Matches.inLoop {p : Program} {s : Site} {L : Level} {top finish : Label}
    {kept i j : Nat} (h : Matches p s L) (htop : p.target top = some i)
    (hfinish : p.target finish = some j) :
    Matches p (s.inLoop kept i j) (L.inLoop kept top finish) where
  height := by simp only [Site.inLoop, Level.inLoop, h.height]
  scopes := h.scopes
  loop exits hexits := by
    cases hexits
    refine ⟨_, rfl, htop, ?_, hfinish, ?_, ?_⟩
    · simp only [h.height]
    · simp only [h.height]
    · simp only [h.scopes]

theorem Matches.inTry {p : Program} {s : Site} {L : Level} (h : Matches p s L) :
    Matches p s.inTry L.inTry where
  height := h.height
  scopes := congrArg (· + 1) h.scopes
  loop := h.loop

theorem codes_writes (hC : Distinct C) (codes : Codes) (h : codes.All C N) (L : Level)
    (U : List Label) :
    Writes C L U (match codes with
      | .listed codes => arguments codes
      | .any => emitPush (.pushInt 0)) (L.up 1) (fun _ => U) fun p _ i j => Codes.At p codes i j := by
  cases codes with
  | any => exact emitPush_writes _
  | listed codes => exact arguments_writes hC codes h L U

theorem catches_length {handlers : List Handler} {labels : List Label}
    (h : ∃ d d', catches handlers d = .ok (labels, d')) : labels.length = handlers.length := by
  obtain ⟨d, d', h⟩ := h
  induction handlers generalizing labels d with
  | nil => cases h; rfl
  | cons handler handlers ih =>
    obtain ⟨name, codes, body⟩ := handler
    cases codes <;> simp only [catches] at h
    all_goals
      obtain ⟨_, _, -, h⟩ := run_bind h
      obtain ⟨label, _, -, h⟩ := run_bind h
      obtain ⟨_, _, -, h⟩ := run_bind h
      obtain ⟨more, _, hmore, h⟩ := run_bind h
      cases h
      simp only [List.length_cons, ih _ hmore]

/-- The code that prepares handlers, with a label for each. -/
theorem catches_writes (hC : Distinct C) (handlers : List Handler) (h : Handler.AllIn C N handlers)
    (L : Level) (U : List Label) :
    Writes C L U (catches handlers) (L.up handlers.length) (fun labels => labels ++ U)
      fun p labels i j => Fresh labels U ∧ CatchesAt p handlers labels i j := by
  induction handlers generalizing L U with
  | nil =>
    simp only [catches]
    refine (Writes.pure _ [] (by intro l; rfl)).imp ?_
    rintro p _ i j ⟨rfl, rfl⟩
    exact ⟨.nil, rfl, rfl⟩
  | cons handler handlers ih =>
    obtain ⟨name, codes, body⟩ := handler
    have hcode : catches (.mk name codes body :: handlers) = ((match codes with
        | .listed codes => arguments codes
        | .any => emitPush (.pushInt 0)) >>= fun _ => do
        let label ← newLabel none
        emit (.pushCatch label)
        let more ← catches handlers
        pure (label :: more)) := by
      cases codes <;> rfl
    have hlevel : (L.up 1).up handlers.length = L.up (handlers.length + 1) := by
      rw [Level.up_up, Nat.add_comm]
    rw [hcode, List.length_cons, ← hlevel]
    refine ((codes_writes hC codes h.2.1 L U).bind fun _ => (newLabel_writes none).bind fun label =>
      (emit_writes _).bind fun _ => (ih h.2.2.2 (L.up 1) (label :: U)).bind fun more =>
      Writes.pure (fun labels => labels ++ U) (label :: more) fun l => by
        simp only [List.mem_append, List.mem_cons]; rw [or_left_comm, or_assoc]).imp ?_
    rintro p _ i j ⟨_, _, hcodes, label, k, ⟨hnew, rfl⟩, _, _, ⟨hop, rfl⟩, more, _,
      ⟨hfresh, hmore⟩, rfl, rfl⟩
    exact ⟨hfresh.cons hnew, label, more, k, rfl, hcodes, hop, hmore⟩

/-! ## Statements -/

mutual

theorem statement_writes (hC : Distinct C) (stmt : Stmt) (h : stmt.All C N) (L : Level)
    (U : List Label) :
    Writes C L U (statement stmt) L (fun _ => U) fun p _ i j =>
      ∀ s, Matches p s L → Stmt.At p s stmt i j := by
  obtain ⟨line, column, node⟩ := stmt
  simp only [statement]
  refine ((startStatement_writes line).bind fun _ => node_writes hC node h L U).imp ?_
  rintro p _ i j ⟨_, _, rfl, hat⟩ s hs
  exact hat s hs

theorem node_writes (hC : Distinct C) (node : StmtNode) (h : node.All C N) (L : Level)
    (U : List Label) :
    Writes C L U (statementNode node) L (fun _ => U) fun p _ i j =>
      ∀ s, Matches p s L → StmtNode.At p s node i j := by
  cases node with
  | branch branches otherwise =>
    cases otherwise with
    | none =>
      simp only [statementNode]
      refine ((newLabel_writes none).bind fun finish =>
        (arms_writes hC branches h.1 finish L (finish :: U)).bind fun _ =>
        place_writes finish U fun x => List.mem_cons).imp ?_
      rintro p _ i j ⟨finish, _, ⟨hnew, rfl⟩, _, _, harms, rfl, ht⟩ s hs
      simp only [StmtNode.At]
      exact ⟨_, finish, harms s hs, rfl, ht hnew⟩
    | some body =>
      simp only [statementNode]
      refine ((newLabel_writes none).bind fun finish =>
        (arms_writes hC branches h.1 finish L (finish :: U)).bind fun _ =>
        (block_writes hC body h.2 L (finish :: U)).bind fun _ =>
        place_writes finish U fun x => List.mem_cons).imp ?_
      rintro p _ i j ⟨finish, _, ⟨hnew, rfl⟩, _, k, harms, _, _, hbody, rfl, ht⟩ s hs
      simp only [StmtNode.At]
      exact ⟨k, finish, harms s hs, hbody s hs, ht hnew⟩
  | forList name source body =>
    simp only [statementNode]
    refine ((expr_writes hC source h.2.1 L U).bind fun _ => (emitPush_writes _).bind fun _ =>
      (newLabel_writes _).bind fun top => (newLabel_writes _).bind fun finish =>
      (place_writes top (finish :: U) fun x => by
        simp only [List.mem_cons]; exact or_left_comm).bind fun _ => (emit_writes _).bind fun _ =>
      loopBody_writes 2 (block_writes hC body h.2.2 _ (finish :: U))).imp ?_
    rintro p _ i j ⟨_, k, hsource, _, _, ⟨hpush, rfl⟩, top, _, ⟨htop, rfl⟩, finish, _,
      ⟨hfinish, rfl⟩, _, _, ⟨rfl, hat⟩, _, _, ⟨hhead, rfl⟩, m, hbody, hjump, hdone, rfl⟩ s hs
    obtain ⟨htop, hfinish⟩ := Fresh.pair htop hfinish
    have hat := hat htop
    have hdone := hdone hfinish
    simp only [StmtNode.At]
    exact ⟨k, m, top, finish, hsource, hpush, hhead, hbody _ (hs.inLoop hat hdone), hjump, hat,
      hdone, rfl⟩
  | forRange name first last body =>
    simp only [statementNode]
    refine ((expr_writes hC first h.2.1 L U).bind fun _ =>
      (expr_writes hC last h.2.2.1 (L.up 1) U).bind fun _ =>
      (newLabel_writes _).bind fun top => (newLabel_writes _).bind fun finish =>
      (place_writes top (finish :: U) fun x => by
        simp only [List.mem_cons]; exact or_left_comm).bind fun _ => (emit_writes _).bind fun _ =>
      loopBody_writes 2 (block_writes hC body h.2.2.2 _ (finish :: U))).imp ?_
    rintro p _ i j ⟨_, n, hfirst, _, _, hlast, top, _, ⟨htop, rfl⟩, finish, _,
      ⟨hfinish, rfl⟩, _, _, ⟨rfl, hat⟩, _, _, ⟨hhead, rfl⟩, m, hbody, hjump, hdone, rfl⟩ s hs
    obtain ⟨htop, hfinish⟩ := Fresh.pair htop hfinish
    have hat := hat htop
    have hdone := hdone hfinish
    simp only [StmtNode.At]
    exact ⟨n, _, m, top, finish, hfirst, hlast, hhead, hbody _ (hs.inLoop hat hdone), hjump, hat,
      hdone, rfl⟩
  | «while» condition body =>
    simp only [statementNode]
    refine ((newLabel_writes none).bind fun top => (newLabel_writes none).bind fun finish =>
      (place_writes top (finish :: U) fun x => by
        simp only [List.mem_cons]; exact or_left_comm).bind fun _ =>
      (expr_writes hC condition h.1 L (finish :: U)).bind fun _ => (emitTake_writes _ 1).bind fun _ =>
      loopBody_writes 0 (block_writes hC body h.2 _ (finish :: U))).imp ?_
    rintro p _ i j ⟨top, _, ⟨htop, rfl⟩, finish, _, ⟨hfinish, rfl⟩, _, _, ⟨rfl, hat⟩, _, k,
      hcondition, _, _, ⟨hhead, rfl⟩, m, hbody, hjump, hdone, rfl⟩ s hs
    obtain ⟨htop, hfinish⟩ := Fresh.pair htop hfinish
    have hat := hat htop
    have hdone := hdone hfinish
    simp only [StmtNode.At]
    exact ⟨k, m, top, finish, hcondition, hhead, hbody _ (hs.inLoop hat hdone), hjump, hat,
      hdone, rfl⟩
  | «try» body handlers =>
    simp only [statementNode]
    -- The labels of the handlers are made before the body, and stay open until their blocks.
    refine ((catches_writes hC handlers h.2 L U).room.bind_of fun labels hlabels =>
      (lower_writes handlers.length).bind fun _ => (newLabel_writes none).bind fun finish =>
      enterTry_writes ((block_writes hC body h.1 L.inTry _).bind fun _ =>
        leaveTry_writes.bind fun _ => (emit_writes _).bind fun _ =>
        ((handlerBodies_writes hC handlers h.2 finish labels (catches_length hlabels) L
          (finish :: U)).reorder fun l => by
            simp only [List.mem_append, List.mem_cons]; exact or_left_comm).bind fun _ =>
        place_writes finish U fun x => List.mem_cons)).imp ?_
    rintro p _ i j ⟨labels, _, ⟨⟨hfresh, hcatches⟩, hroom⟩, _, _, rfl, finish, k,
      ⟨hfinish, rfl⟩, hop, _, _, hbody, _, m, rfl, _, _, ⟨hleave, rfl⟩, _, _, hhandlers, rfl, ht⟩ s hs
    obtain ⟨hfresh, hfinish⟩ := hfresh.beside hfinish
    have hcount : handlers.length < UInt16.size :=
      Nat.lt_of_le_of_lt (Nat.le_add_left _ _) hroom
    simp only [StmtNode.At]
    exact ⟨k, m, labels, _, finish, hcatches, hop, UInt16.toNat_ofNat_of_lt' hcount, hbody _ hs.inTry, hleave,
      hhandlers hfresh s hs, ht hfinish⟩
  | «break» =>
    simp only [statementNode]
    refine (leaveLoop_writes _ _ _ fun d L U hd e he => (hd.loops e he).2.1).imp ?_
    rintro p _ i j ⟨exits, n, scopes, hloop, hop, hn, hscopes, hj⟩ s hs
    obtain ⟨loop, hsome, -, -, ht, hheight, hs⟩ := hs.loop exits hloop
    simp only [StmtNode.At]
    exact ⟨loop, n, _, scopes, hsome, hop, hn.trans hheight, ht, hscopes.trans hs, hj⟩
  | «continue» =>
    simp only [statementNode]
    refine (leaveLoop_writes _ _ _ fun d L U hd e he => (hd.loops e he).1).imp ?_
    rintro p _ i j ⟨exits, n, scopes, hloop, hop, hn, hscopes, hj⟩ s hs
    obtain ⟨loop, hsome, ht, hheight, -, -, hs⟩ := hs.loop exits hloop
    simp only [StmtNode.At]
    exact ⟨loop, n, _, scopes, hsome, hop, hn.trans hheight, ht, hscopes.trans hs, hj⟩
  | «return» value =>
    cases value with
    | none =>
      simp only [statementNode]
      refine (emit_writes _).imp ?_
      intro p _ i j hop s _
      simpa only [StmtNode.At] using hop
    | some e =>
      simp only [statementNode]
      refine ((expr_writes hC e h L U).bind fun _ => emitTake_writes _ 1).imp ?_
      rintro p _ i j ⟨_, k, he, hop, hj⟩ s _
      simp only [StmtNode.At]
      exact ⟨k, he, hop, hj⟩
  | expr e =>
    simp only [statementNode]
    refine ((expr_writes hC e h L U).bind fun _ => emitTake_writes _ 1).imp ?_
    rintro p _ i j ⟨_, k, he, hop, hj⟩ s _
    simp only [StmtNode.At]
    exact ⟨k, he, hop, hj⟩

theorem block_writes (hC : Distinct C) (stmts : List Stmt) (h : Stmt.AllIn C N stmts) (L : Level)
    (U : List Label) :
    Writes C L U (block stmts) L (fun _ => U) fun p _ i j =>
      ∀ s, Matches p s L → BlockAt p s stmts i j := by
  match stmts with
  | [] =>
    simp only [block]
    exact Writes.nothing.imp fun _ _ _ _ h _ _ => by simpa only [BlockAt] using h
  | stmt :: rest =>
    simp only [block]
    refine ((statement_writes hC stmt h.1 L U).bind fun _ => block_writes hC rest h.2 L U).imp ?_
    rintro p _ i j ⟨_, k, hstmt, hrest⟩ s hs
    simp only [BlockAt]
    exact ⟨k, hstmt s hs, hrest s hs⟩

theorem arms_writes (hC : Distinct C) (branches : List (Expr × List Stmt))
    (h : Stmt.AllInArms C N branches) (finish : Label) (L : Level) (U : List Label) :
    Writes C L U (arms finish branches) L (fun _ => U) fun p _ i j =>
      ∀ s, Matches p s L → ArmsAt p s finish branches i j := by
  match branches with
  | [] =>
    simp only [arms]
    exact Writes.nothing.imp fun _ _ _ _ h _ _ => by simpa only [ArmsAt] using h
  | (condition, body) :: rest =>
    simp only [arms]
    refine ((expr_writes hC condition h.1 L U).bind fun _ => (newLabel_writes none).bind fun next =>
      (emitTake_writes _ 1).bind fun _ => (block_writes hC body h.2.1 L (next :: U)).bind fun _ =>
      (emit_writes _).bind fun _ =>
      (place_writes next U fun x => List.mem_cons).bind fun _ =>
      arms_writes hC rest h.2.2 finish L U).imp ?_
    rintro p _ i j ⟨_, _, hcondition, next, k, ⟨hnew, rfl⟩, _, _, ⟨hop, rfl⟩, _, m, hbody, _, _,
      ⟨hjump, rfl⟩, _, _, ⟨rfl, ht⟩, hrest⟩ s hs
    simp only [ArmsAt]
    exact ⟨k, m, next, hcondition, hop, hbody s hs, hjump, ht hnew, hrest s hs⟩

theorem handlerBodies_writes (hC : Distinct C) (handlers : List Handler)
    (h : Handler.AllIn C N handlers) (finish : Label) (labels : List Label)
    (hlabels : labels.length = handlers.length) (L : Level) (U : List Label) :
    Writes C L (labels ++ U) (handlerBodies finish handlers labels) L (fun _ => U) fun p _ i j =>
      Fresh labels U → ∀ s, Matches p s L → HandlersAt p s finish handlers labels i j := by
  match handlers, labels with
  | [], [] =>
    simp only [handlerBodies]
    refine Writes.nothing.imp ?_
    rintro p _ i j rfl - s -
    simp only [HandlersAt, and_self]
  | .mk name codes body :: rest, label :: more =>
    have hmore : more.length = rest.length := Nat.succ.inj hlabels
    simp only [handlerBodies, List.cons_append]
    cases rest with
    | nil =>
      obtain rfl := List.length_eq_zero_iff.mp hmore
      simp only [List.isEmpty_nil, Bool.not_true, Bool.false_eq_true, if_false]
      refine ((place_writes label U fun x => List.mem_cons).bind fun _ =>
        receive_writes name ((block_writes hC body h.2.2.1 L U).bind fun _ =>
          handlerBodies_writes hC [] h.2.2.2 finish [] rfl L U)).imp ?_
      rintro p _ i j ⟨_, _, ⟨rfl, ht⟩, k, hreceive, _, m, hbody, hrest⟩ hfresh s hs
      have hj := hrest .nil s hs
      simp only [HandlersAt, true_and] at hj
      simp only [HandlersAt, List.isEmpty_nil, if_true]
      exact ⟨label, [], k, m, rfl, ht hfresh.head, hreceive, hbody s hs, rfl, hj⟩
    | cons handler rest =>
      simp only [List.isEmpty_cons, Bool.not_false, if_true]
      refine ((place_writes label (more ++ U) fun x => List.mem_cons).bind fun _ =>
        receive_writes name ((block_writes hC body h.2.2.1 L (more ++ U)).bind fun _ =>
          (emit_writes _).bind fun _ =>
          handlerBodies_writes hC (handler :: rest) h.2.2.2 finish more hmore L U)).imp ?_
      rintro p _ i j ⟨_, _, ⟨rfl, ht⟩, k, hreceive, _, m, hbody, _, _, ⟨hjump, rfl⟩, hrest⟩
        hfresh s hs
      have hrest := hrest hfresh.tail s hs
      rw [HandlersAt]
      simp only [List.isEmpty_cons, Bool.false_eq_true, if_false]
      exact ⟨label, more, k, m, rfl, ht hfresh.head, hreceive, hbody s hs, hjump, hrest⟩

end

/-! ## Scripts -/

end Draft

open Draft

/-- The numbers in a program that instructions refer to fit in 16 bits. -/
structure Program.Fits (p : Program) : Prop where
  ops : p.ops.size ≤ UInt16.size
  labels : p.labels.size ≤ UInt16.size
  literals : p.literals.size ≤ UInt16.size
  scatterTables : p.scatterTables.size ≤ UInt16.size
  names : p.names.width ≤ UInt16.size

instance (p : Program) : Decidable p.Fits :=
  decidable_of_iff (p.ops.size ≤ UInt16.size ∧ p.labels.size ≤ UInt16.size ∧
      p.literals.size ≤ UInt16.size ∧ p.scatterTables.size ≤ UInt16.size ∧
      p.names.width ≤ UInt16.size)
    ⟨fun ⟨ops, labels, literals, tables, names⟩ => ⟨ops, labels, literals, tables, names⟩,
      fun ⟨ops, labels, literals, tables, names⟩ => ⟨ops, labels, literals, tables, names⟩⟩

/-- A program is what the draft of its script ends up in. -/
theorem Script.SyntaxTree.compile_ok {tree : SyntaxTree} {p : Program} (h : tree.compile = .ok p) :
    ∃ d, block tree.statements {} = .ok ((), d) ∧ d.program tree.names = p := by
  obtain ⟨⟨⟨⟩, d⟩, hd, hp⟩ : ∃ r, block tree.statements {} = .ok r ∧
      (.ok (r.2.program tree.names) : Except CompileError Program) = .ok p := by
    cases hblock : block tree.statements {} with
    | error e =>
      have herr : tree.compile = .error e := by
        simp only [SyntaxTree.compile, StateT.run, hblock]; rfl
      rw [herr] at h
      cases h
    | ok r =>
      refine ⟨r, rfl, ?_⟩
      rw [← h]
      simp only [SyntaxTree.compile, StateT.run, hblock]
      rfl
  exact ⟨d, hd, Except.ok.inj hp⟩

theorem Script.SyntaxTree.compile_names {tree : SyntaxTree} {p : Program}
    (h : tree.compile = .ok p) : tree.names = p.names := by
  obtain ⟨d, -, rfl⟩ := SyntaxTree.compile_ok h
  rfl

/-- What the code generator makes of a sound tree is its code. -/
theorem Script.SyntaxTree.Sound.codeOf {tree : SyntaxTree} {p : Program} (hsound : tree.Sound)
    (hcompile : tree.compile = .ok p) (hfits : p.Fits) : p.CodeOf tree.statements := by
  obtain ⟨C, hC, hall⟩ := hsound
  obtain ⟨d, hblock, rfl⟩ := SyntaxTree.compile_ok hcompile
  have hready : Ready C ⟨0, [], 0⟩ [] {} :=
    { level := rfl
      constants := fun v hv => absurd hv (Array.not_mem_empty v)
      pending := fun l hl => absurd hl List.not_mem_nil
      height := Nat.le_refl _
      scopes := Nat.le_refl _
      loops := fun e he => absurd he List.not_mem_nil }
  obtain ⟨-, hback⟩ := block_writes hC tree.statements hall ⟨0, [], 0⟩ [] {} () d hready hblock
  have hops := hfits.ops
  simp only [program, Array.size_push] at hops
  obtain ⟨-, hat⟩ := hback (d.program tree.names)
    { ops := .push _ _
      literals := .refl _
      tables := .refl _
      labels := fun _ _ _ => rfl
      ops_lt := by omega
      labels_le := hfits.labels
      literals_le := hfits.literals
      tables_le := hfits.scatterTables }
  refine ⟨d.ops.size, hat ⟨0, 0, none⟩ ⟨rfl, rfl, fun _ h => nomatch h⟩, ?_⟩
  simp [program]

/-- A tree that can be seen to have a program that fits. -/
theorem Script.SyntaxTree.exists_program {tree : SyntaxTree}
    (h : (tree.compile.toOption.any fun p => decide p.Fits) = true) :
    ∃ p, tree.compile = .ok p ∧ p.Fits := by
  cases hcompile : tree.compile with
  | error e => rw [hcompile] at h; cases h
  | ok p =>
    rw [hcompile] at h
    exact ⟨p, rfl, of_decide_eq_true h⟩

/-- The tree and the program of a script, if it has a program that fits. -/
def Script.build? (source : String) (customErrors : Bool) : Option (SyntaxTree × Program) :=
  match SyntaxTree.read source customErrors with
  | .error _ => none
  | .ok tree =>
    match tree.compile with
    | .error _ => none
    | .ok p => if p.Fits then some (tree, p) else none

theorem Script.build?_eq_some {source : String} {customErrors : Bool} {tree : SyntaxTree}
    {p : Program} (h : build? source customErrors = some (tree, p)) :
    SyntaxTree.read source customErrors = .ok tree ∧ tree.compile = .ok p ∧ p.Fits := by
  unfold build? at h
  split at h
  · cases h
  · rename_i tree' hread
    split at h
    · cases h
    · rename_i p' hcompile
      split at h
      · cases h
        exact ⟨hread, hcompile, ‹_›⟩
      · cases h

/-- A call of a program by the root object, on itself. -/
def Program.rootCall (p : Program) : Activation :=
  .start p .root .root "" (.direct .root) []

end Lineage
