/-
  Lineage.Proofs.Script.StmtSimulation

  The code of statements does what their evaluation does.

  A `try` statement first evaluates what its clauses take, while nothing of it protects
  that.  Its body then runs in one more scope.  An error in the body finds the scope on
  top again, and the stack cut back to where the body started; if no clause takes it,
  it goes on as if it had been raised outside.
-/
import Lineage.Proofs.Script.LoopSimulation

namespace Lineage.Script

section

variable {s : Scene} {p : Program} {site : Site} {below stack : List Value}
  {scopes : List Lineage.Scope} {n : Nat}

/-! ## Handlers -/

/-- A call is raising an error in code that has left the scopes and what is below on the stack. -/
def Raising (p : Program) (e : ScriptError) (below : List Value) (scopes : List Lineage.Scope) :
    Whereabouts :=
  fun env w c => ∃ f, c = .raising e f w ∧ f.program = p ∧ f.env = env ∧ f.scopes = scopes ∧
    below <:+ f.stack

theorem Sim.rescue {α : Type} {inner outer : List Lineage.Scope} {pre : Whereabouts} {x : Eval α}
    {handle : ScriptError → Eval α} {post : α → Whereabouts}
    (hx : Sim s p below inner n pre x post)
    (hh : ∀ e, Sim s p below outer n (Raising p e below inner) (handle e) post) :
    Sim s p below outer n pre (Eval.rescue x handle) post := by
  intro env w c henv hc
  have hx := hx env w c henv hc
  simp only [Eval.rescue]
  generalize x env w = r at hx ⊢
  rcases r with _ | ⟨⟨e⟩ | a, env₁, w₁⟩
  · exact hx
  · cases e with
    | raised e =>
      -- Only an error that was raised is handled, in the world that it was raised in.
      obtain ⟨hsize, f, hf, hrest⟩ := hx
      have hnext := hh e env₁ w₁ _ (hsize ▸ henv) ⟨f, rfl, hrest⟩
      rw [hsize] at hnext
      exact hnext.before hf
    | faulted => exact hx
  · exact hx

theorem cut_suffix {stack full : List Value} (h : stack <:+ full) :
    Frame.cut stack.length full = stack := by
  obtain ⟨front, rfl⟩ := h
  exact cut_length front stack

/-- An error that no clause takes goes on as if it had been raised outside the `try` statement. -/
theorem pass_on {α : Type} {handlers : List (Catch × Label)} {e : ScriptError} {post : α → Whereabouts}
    (hfind : (handlers.find? fun h => h.1.accepts e.code) = none) :
    Sim s p stack scopes n (Raising p e stack (⟨handlers, stack.length⟩ :: scopes))
      (Eval.raise e) post := by
  rintro env w c - ⟨f, rfl, hp, henv, hscopes, hstack⟩
  refine ⟨rfl, { f with scopes := scopes, stack := stack }, .of_eq fun m => ?_, hp, henv, rfl,
    List.suffix_refl _⟩
  -- The innermost scope has no handler for it, and unwinding goes on in the scopes around it.
  have hout : f.handler? e.code f.scopes =
      Frame.handler? { f with scopes := scopes, stack := stack } e.code scopes := by
    rw [hscopes, Frame.handler?]
    simp only [cut_suffix hstack, hfind]
  simp only [Point.exec, Activation.recover, Activation.withFrame, hout]

/-- An error that a clause takes leads to its handler, with the error on the stack. -/
theorem enter_handler {handlers : List (Catch × Label)} {e : ScriptError} {c : Catch} {l : Label}
    {k : Nat} (hfind : (handlers.find? fun h => h.1.accepts e.code) = some (c, l))
    (hl : p.target l = some k) :
    Gets s p (Raising p e stack (⟨handlers, stack.length⟩ :: scopes))
      (Standing p k (.err e :: stack) scopes) := by
  rintro env w _ - ⟨f, rfl, rfl, rfl, hscopes, hstack⟩
  refine ⟨_, .of_eq fun m => ?_, f.catches, f.kept, rfl⟩
  have hin : f.handler? e.code f.scopes = some (l, { f with scopes := scopes, stack := stack }) := by
    rw [hscopes, Frame.handler?]
    simp only [cut_suffix hstack, hfind]
  have hjump : (Frame.push { f with scopes := scopes, stack := stack } (.err e)).jump l =
      .next (frame f.program k (.err e :: stack) scopes f.catches f.kept f.env) := Frame.jump_target hl
  simp only [Point.exec, Activation.recover, Activation.withFrame, hin, hjump]

theorem Suits.inTry (h : Suits site stack scopes) (scope : Lineage.Scope) :
    Suits site.inTry stack (scope :: scopes) where
  height := h.height
  scopes := congrArg (· + 1) h.scopes
  loop loop hloop := by
    obtain ⟨h₁, h₂, h₃⟩ := h.loop loop hloop
    exact ⟨h₁, h₂, Nat.le_succ_of_le h₃⟩

/-- However control leaves the body of a `try` statement, its scope is closed. -/
theorem leave_body (hsite : Suits site stack scopes) {handlers : List (Catch × Label)} {l : Label}
    {m j : Nat} (hop : p.ops[m]? = some (.leaveTry l)) (ht : p.target l = some j) (flow : Flow) :
    Gets s p (Leaves p site.inTry m stack (⟨handlers, stack.length⟩ :: scopes) flow)
      (Leaves p site j stack scopes flow) := by
  -- The scope of the statement is not among those of a loop around it.
  have hdrop {loop : LoopSite} (hloop : site.loop = some loop) :
      (⟨handlers, stack.length⟩ :: scopes).drop
          ((⟨handlers, stack.length⟩ :: scopes : List Lineage.Scope).length - loop.scopes) =
        scopes.drop (scopes.length - loop.scopes) := by
    have hle := (hsite.loop loop hloop).2.2
    have hlen := hsite.scopes
    rw [List.length_cons, show scopes.length + 1 - loop.scopes = scopes.length - loop.scopes + 1 by
      omega, List.drop_succ_cons]
  cases flow with
  | next =>
    refine Goes.gets ?_
    rintro env w c - ⟨catches, kept, rfl⟩
    have hstep : (frame p m stack (⟨handlers, stack.length⟩ :: scopes) catches kept env).step =
        (frame p (m + 1) (Frame.cut stack.length stack) scopes catches kept env).jump l :=
      frame_step hop
    rw [cut_self (Nat.le_refl _), Frame.jump_target ht] at hstep
    exact ⟨_, .next hstep, catches, kept, rfl⟩
  | «break» =>
    refine .of_imp ?_
    rintro env w c ⟨loop, hloop, hc⟩
    rw [hdrop hloop] at hc
    exact ⟨loop, hloop, hc⟩
  | «continue» =>
    refine .of_imp ?_
    rintro env w c ⟨loop, hloop, hc⟩
    rw [hdrop hloop] at hc
    exact ⟨loop, hloop, hc⟩
  | «return» v => exact .of_imp fun _ _ _ h => h

/-- However control leaves a part of a statement, the rest of the statement is skipped. -/
theorem leave_part {l : Label} {m j : Nat} (hop : p.ops[m]? = some (.jump l))
    (ht : p.target l = some j) (flow : Flow) :
    Gets s p (Leaves p site m stack scopes flow) (Leaves p site j stack scopes flow) := by
  cases flow with
  | next => exact (Goes.jump hop ht).gets
  | _ => exact .of_imp fun _ _ _ h => h

/-- The jump out of a loop. -/
theorem exit_sim {i k : Nat} {height scopeCount : UInt16} {l : Label}
    (hop : p.ops[i]? = some (.exit height l scopeCount)) (ht : p.target l = some k) :
    Goes s p (Standing p i stack scopes) (Standing p k (Frame.cut height.toNat stack)
      (scopes.drop (scopes.length - scopeCount.toNat))) := by
  rintro env w c - ⟨catches, kept, rfl⟩
  have hstep : (frame p i stack scopes catches kept env).step =
      (frame p (i + 1) (Frame.cut height.toNat stack)
        (scopes.drop (scopes.length - scopeCount.toNat)) catches kept env).jump l := frame_step hop
  rw [Frame.jump_target ht] at hstep
  exact ⟨_, .next hstep, catches, kept, rfl⟩

end

variable {C : Value → Prop} {s : Scene} {p : Program}

theorem codes_sim (hs : s.names = p.names) (codes : Codes) (h : codes.All C (Slotted p)) {i j : Nat}
    (hat : Codes.At p codes i j) (stack : List Value) (scopes : List Lineage.Scope)
    (catches : List (Catch × Label)) :
    Sim s p stack scopes s.fuel (Here p i stack scopes catches) (codes.eval s)
      fun c env w pt => ∃ v, Frame.catchOf v = c ∧ Here p j (v :: stack) scopes catches env w pt := by
  cases codes with
  | any =>
    obtain ⟨hop, rfl⟩ := hat
    have hgo : Goes s p (Here p i stack scopes catches)
        (Here p (i + 1) (.int 0 :: stack) scopes catches) := .instruction hop fun kept env => ⟨kept, rfl⟩
    exact .before hgo (.pure fun _ _ _ h => ⟨.int 0, rfl, h⟩)
  | listed codes =>
    exact (args_sim hs codes h hat stack).bind fun vs => .pure fun _ _ _ h => ⟨.list vs, rfl, h⟩

/-- The code that prepares handlers leaves what they take, each with the label of its handler. -/
theorem catches_sim (hs : s.names = p.names) (handlers : List Handler)
    (h : Handler.AllIn C (Slotted p) handlers) {labels : List Label} {i j : Nat}
    (hat : CatchesAt p handlers labels i j) (stack : List Value) (scopes : List Lineage.Scope)
    (catches : List (Catch × Label)) :
    Sim s p stack scopes s.fuel (Here p i stack scopes catches) (evalCatches s handlers)
      fun cs env w c => cs.length = labels.length ∧
        Here p j stack scopes ((cs.zip labels).reverse ++ catches) env w c := by
  induction handlers generalizing labels i catches with
  | nil =>
    obtain ⟨rfl, rfl⟩ := hat
    exact .pure fun _ _ _ h => ⟨rfl, h⟩
  | cons handler handlers ih =>
    obtain ⟨name, codes, body⟩ := handler
    obtain ⟨label, more, k, rfl, hcodes, hop, hmore⟩ := hat
    simp only [evalCatches]
    refine (codes_sim hs codes h.2.1 hcodes stack scopes catches).bind fun c =>
      .exists fun v hv => ?_
    subst hv
    have hgo : Goes s p (Here p k (v :: stack) scopes catches)
        (Here p (k + 1) stack scopes ((Frame.catchOf v, label) :: catches)) :=
      .instruction hop fun kept env => ⟨kept, rfl⟩
    refine .before hgo ((ih h.2.2.2 hmore _).bind fun cs => .pure ?_)
    rintro env w c ⟨hlen, hc⟩
    refine ⟨congrArg (· + 1) hlen, ?_⟩
    -- Handlers are prepared in the order of their clauses, so the last one is on top.
    simpa only [List.zip_cons_cons, List.reverse_cons, List.append_assoc, List.singleton_append] using hc

theorem catchesAt_length {handlers : List Handler} {labels : List Label} {i j : Nat}
    (hat : CatchesAt p handlers labels i j) : labels.length = handlers.length := by
  induction handlers generalizing labels i with
  | nil => obtain ⟨rfl, -⟩ := hat; rfl
  | cons handler handlers ih =>
    obtain ⟨name, codes, body⟩ := handler
    obtain ⟨label, more, k, rfl, -, -, hmore⟩ := hat
    exact congrArg (· + 1) (ih hmore)

/-- The code that takes the error off the stack when a handler starts. -/
theorem receive_sim {α : Type} {e : ScriptError} {stack : List Value} {scopes : List Lineage.Scope}
    {n i j : Nat} {x : Eval α} {post : α → Whereabouts} (name : Option Name)
    (hname : ∀ x, name = some x → Slotted p x) (hat : ReceiveAt p name i j)
    (hx : Sim s p stack scopes n (Standing p j stack scopes) x post) :
    Sim s p stack scopes n (Standing p i (.err e :: stack) scopes)
      (match name with
        | some name => do
          Eval.set name (.err e)
          x
        | none => x) post := by
  cases name with
  | none =>
    obtain ⟨hpop, rfl⟩ := hat
    have hgo : Goes s p (Standing p i (.err e :: stack) scopes) (Standing p (i + 1) stack scopes) :=
      .standing hpop fun _ _ _ => rfl
    exact .before hgo hx
  | some name =>
    obtain ⟨hstore, hpop, rfl⟩ := hat
    refine .standing fun catches => ?_
    have hgo : Goes s p (Here p (i + 1) (.err e :: stack) scopes catches)
        (Here p (i + 2) stack scopes catches) := .instruction hpop fun kept env => ⟨kept, rfl⟩
    exact (Sim.store_here hstore (hname name rfl)).bind fun _ =>
      .before hgo (hx.from_ fun env w c h => ⟨catches, h⟩)

mutual

theorem stmt_sim (hs : s.names = p.names) (stmt : Stmt) (h : stmt.All C (Slotted p)) {site : Site}
    {i j : Nat} (hat : Stmt.At p site stmt i j) {stack : List Value} {scopes : List Lineage.Scope}
    (hsite : Suits site stack scopes) :
    Sim s p stack scopes s.fuel (Standing p i stack scopes) (stmt.eval s)
      (Leaves p site j stack scopes) := by
  obtain ⟨line, column, node⟩ := stmt
  simp only [Stmt.eval]
  exact node_sim hs node h hat hsite

theorem node_sim (hs : s.names = p.names) (node : StmtNode) (h : node.All C (Slotted p))
    {site : Site} {i j : Nat} (hat : StmtNode.At p site node i j) {stack : List Value}
    {scopes : List Lineage.Scope} (hsite : Suits site stack scopes) :
    Sim s p stack scopes s.fuel (Standing p i stack scopes) (node.eval s)
      (Leaves p site j stack scopes) := by
  cases node with
  | branch arms otherwise =>
    cases otherwise with
    | none =>
      simp only [StmtNode.At] at hat
      obtain ⟨k, finish, harms, rfl, hfinish⟩ := hat
      simp only [StmtNode.eval]
      exact arms_sim hs arms h.1 harms hfinish hsite (.pure fun _ _ _ h => h)
    | some body =>
      simp only [StmtNode.At] at hat
      obtain ⟨k, finish, harms, hbody, hfinish⟩ := hat
      simp only [StmtNode.eval]
      exact arms_sim hs arms h.1 harms hfinish hsite (block_sim hs body h.2 hbody hsite)
  | forList name source body =>
    simp only [StmtNode.At] at hat
    obtain ⟨k, m, top, finish, hsource, hpush, hop, hbody, hjump, htop, hfinish, rfl⟩ := hat
    simp only [StmtNode.eval]
    refine .standing fun catches => (expr_sim hs source h.2.1 hsource stack).bind fun v => ?_
    -- The counter is pushed before it is known whether the value is a list.
    have hgo : Goes s p (Here p k (v :: stack) scopes catches)
        (Here p (k + 1) (.int 0 :: v :: stack) scopes catches) :=
      .instruction hpush fun kept env => ⟨kept, rfl⟩
    refine .before hgo ?_
    cases v with
    | list items =>
      refine (forEach_sim hsite h.1 hop hjump htop hfinish (fun values hvalues => ?_)
        (items.take (2 ^ 63)) (List.drop_zero) (Nat.zero_le _)).from_ fun env w c h => ⟨catches, h⟩
      exact block_sim hs body h.2.2 hbody (hvalues ▸ hsite.inLoop values (k + 1) (m + 1))
    | _ => exact .raise hop (fun _ _ => rfl) (List.suffix_refl _)
  | forRange name first last body =>
    simp only [StmtNode.At] at hat
    obtain ⟨l, k, m, top, finish, hfirst, hlast, hop, hbody, hjump, htop, hfinish, rfl⟩ := hat
    simp only [StmtNode.eval]
    refine .standing fun catches => (expr_sim hs first h.2.1 hfirst stack).bind fun a =>
      ((expr_sim hs last h.2.2.1 hlast (a :: stack)).lower (List.suffix_cons _ _)).bind fun b => ?_
    cases a with
    | int a =>
      cases b with
      | int b =>
        refine (forCount_sim hsite h.1 hop hjump htop hfinish (fun values hvalues => ?_)
          (countFromTo a b) rfl).from_ fun env w c h => ⟨catches, h⟩
        exact block_sim hs body h.2.2.2 hbody (hvalues ▸ hsite.inLoop values k (m + 1))
      | _ => exact .raise hop (fun _ _ => rfl) (List.suffix_refl _)
    | _ => exact .raise hop (fun _ _ => rfl) (List.suffix_refl _)
  | «while» condition body =>
    simp only [StmtNode.At] at hat
    obtain ⟨k, m, top, finish, hcondition, hop, hbody, hjump, htop, hfinish, rfl⟩ := hat
    simp only [StmtNode.eval]
    exact whileLoop_sim hsite hop hjump htop hfinish
      (fun catches => expr_sim hs condition h.1 hcondition stack)
      (block_sim hs body h.2 hbody (hsite.inLoop [] i (m + 1))) s.fuel (Nat.le_refl _)
  | «try» body handlers =>
    simp only [StmtNode.At] at hat
    obtain ⟨k, m, labels, count, finish, hcatches, hop, hcount, hbody, hleave, hhandlers, hfinish⟩ := hat
    simp only [StmtNode.eval]
    refine .standing fun catches =>
      (catches_sim hs handlers h.2 hcatches stack scopes catches).bind fun cs => .and fun hcs => ?_
    -- Just the handlers of this statement move into the scope that is opened, in their order.
    have hlen : count.toNat = (cs.zip labels).reverse.length := by
      rw [hcount, ← catchesAt_length hcatches, List.length_reverse, List.length_zip, hcs, Nat.min_self]
    have hgo : Goes s p (Here p k stack scopes ((cs.zip labels).reverse ++ catches))
        (Here p (k + 1) stack (⟨cs.zip labels, stack.length⟩ :: scopes) catches) := by
      refine .instruction hop fun kept env => ⟨kept, ?_⟩
      simp only [Frame.perform, frame, hlen, List.take_left, List.drop_left, List.reverse_reverse]
    have hbody := (block_sim hs body h.1 hbody (hsite.inTry ⟨cs.zip labels, stack.length⟩)).after
      (leave_body hsite hleave hfinish)
    have hstart := hbody.from_ fun env w c h => ⟨catches, h⟩
    refine .before hgo (hstart.rescue fun e => ?_)
    -- What the body raises goes to the first clause that takes it, or on.
    have hhandlers := handlers_sim hs e handlers h.2 hhandlers hfinish hcs hsite
    split at hhandlers
    case h_1 hfind =>
      rw [hhandlers]
      exact pass_on hfind
    case h_2 c l hfind =>
      obtain ⟨k', hl, hhandler⟩ := hhandlers
      exact hhandler.started (enter_handler hfind hl)
  | «break» =>
    simp only [StmtNode.At] at hat
    obtain ⟨loop, height, label, scopeCount, hloop, hop, hheight, ht, hscopes, rfl⟩ := hat
    simp only [StmtNode.eval]
    refine .before (exit_sim hop ht) (.pure fun env w c hc => ⟨loop, hloop, ?_⟩)
    rwa [← hheight, ← hscopes]
  | «continue» =>
    simp only [StmtNode.At] at hat
    obtain ⟨loop, height, label, scopeCount, hloop, hop, hheight, ht, hscopes, rfl⟩ := hat
    simp only [StmtNode.eval]
    refine .before (exit_sim hop ht) (.pure fun env w c hc => ⟨loop, hloop, ?_⟩)
    rwa [← hheight, ← hscopes]
  | «return» value =>
    cases value with
    | none =>
      simp only [StmtNode.At] at hat
      simp only [StmtNode.eval]
      refine .before ?_ (.pure fun _ _ _ h => h)
      rintro env w c - ⟨catches, kept, rfl⟩
      exact ⟨_, .return (frame_step hat.1), rfl⟩
    | some e =>
      simp only [StmtNode.At] at hat
      obtain ⟨k, he, hop, rfl⟩ := hat
      simp only [StmtNode.eval]
      refine .standing fun catches => (expr_sim hs e h he stack).bind fun v =>
        .before ?_ (.pure fun _ _ _ h => h)
      rintro env w c - ⟨kept, rfl⟩
      exact ⟨_, .return (frame_step hop), rfl⟩
  | expr e =>
    simp only [StmtNode.At] at hat
    obtain ⟨k, he, hop, rfl⟩ := hat
    simp only [StmtNode.eval]
    refine .standing fun catches => (expr_sim hs e h he stack).bind fun v => ?_
    have hgo : Goes s p (Here p k (v :: stack) scopes catches) (Here p (k + 1) stack scopes catches) :=
      .instruction hop fun kept env => ⟨kept, rfl⟩
    exact .before hgo (.pure fun _ _ _ h => ⟨catches, h⟩)

theorem block_sim (hs : s.names = p.names) (stmts : List Stmt) (h : Stmt.AllIn C (Slotted p) stmts)
    {site : Site} {i j : Nat} (hat : BlockAt p site stmts i j) {stack : List Value}
    {scopes : List Lineage.Scope} (hsite : Suits site stack scopes) :
    Sim s p stack scopes s.fuel (Standing p i stack scopes) (evalBlock s stmts)
      (Leaves p site j stack scopes) := by
  match stmts with
  | [] =>
    simp only [BlockAt] at hat
    obtain rfl := hat
    simp only [evalBlock]
    exact .pure fun _ _ _ h => h
  | stmt :: rest =>
    simp only [BlockAt] at hat
    obtain ⟨k, hstmt, hrest⟩ := hat
    simp only [evalBlock]
    refine (stmt_sim hs stmt h.1 hstmt hsite).bind fun flow => ?_
    cases flow with
    | next => exact block_sim hs rest h.2 hrest hsite
    | _ => exact .pure fun _ _ _ h => h

theorem arms_sim (hs : s.names = p.names) (arms : List (Expr × List Stmt))
    (h : Stmt.AllInArms C (Slotted p) arms) {site : Site} {finish : Label} {i k j : Nat}
    (hat : ArmsAt p site finish arms i k) (hfinish : p.target finish = some j) {stack : List Value}
    {scopes : List Lineage.Scope} (hsite : Suits site stack scopes) {otherwise : Eval Flow}
    (hother : Sim s p stack scopes s.fuel (Standing p k stack scopes) otherwise
      (Leaves p site j stack scopes)) :
    Sim s p stack scopes s.fuel (Standing p i stack scopes) (evalArms s otherwise arms)
      (Leaves p site j stack scopes) := by
  match arms with
  | [] =>
    simp only [ArmsAt] at hat
    obtain rfl := hat
    simp only [evalArms]
    exact hother
  | (condition, body) :: rest =>
    simp only [ArmsAt] at hat
    obtain ⟨l, m, next, hcondition, hop, hbody, hjump, hnext, hrest⟩ := hat
    simp only [evalArms]
    refine .standing fun catches => (expr_sim hs condition h.1 hcondition stack).bind fun v => ?_
    -- The condition is dropped either way, and the arm is run or skipped.
    have hperform (kept : Value) (env : Env) :
        (frame p (l + 1) (v :: stack) scopes catches kept env).perform (.branch next) =
          (frame p (l + 1) stack scopes catches kept env).jumpUnless v.truth next := rfl
    split
    case isTrue hv =>
      have hgo : Goes s p (Here p l (v :: stack) scopes catches)
          (Here p (l + 1) stack scopes catches) := by
        refine .instruction hop fun kept env => ⟨kept, ?_⟩
        rw [hperform, Frame.jumpUnless, if_pos hv]
      have hbody := (block_sim hs body h.2.1 hbody hsite).after (leave_part hjump hfinish)
      exact .before hgo (hbody.from_ fun env w c h => ⟨catches, h⟩)
    case isFalse hv =>
      have hgo : Goes s p (Here p l (v :: stack) scopes catches)
          (Here p (m + 1) stack scopes catches) := by
        refine .instruction hop fun kept env => ⟨kept, ?_⟩
        rw [hperform, Frame.jumpUnless, if_neg hv, Frame.jump_target hnext]
        rfl
      have hrest := arms_sim hs rest h.2.2 hrest hfinish hsite hother
      exact .before hgo (hrest.from_ fun env w c h => ⟨catches, h⟩)

/-- The first clause that takes an error decides both where the code goes on and what is evaluated. -/
theorem handlers_sim (hs : s.names = p.names) (e : ScriptError) (handlers : List Handler)
    (h : Handler.AllIn C (Slotted p) handlers) {site : Site} {finish : Label} {labels : List Label}
    {i j : Nat} (hat : HandlersAt p site finish handlers labels i j)
    (hfinish : p.target finish = some j) {cs : List Catch} (hcs : cs.length = labels.length)
    {stack : List Value} {scopes : List Lineage.Scope} (hsite : Suits site stack scopes) :
    match (cs.zip labels).find? (fun h => h.1.accepts e.code) with
    | none => evalHandlers s e cs handlers = Eval.raise e
    | some (_, l) => ∃ k, p.target l = some k ∧
        Sim s p stack scopes s.fuel (Standing p k (.err e :: stack) scopes)
          (evalHandlers s e cs handlers) (Leaves p site j stack scopes) := by
  match handlers, cs with
  | [], cs =>
    simp only [HandlersAt] at hat
    obtain ⟨rfl, rfl⟩ := hat
    obtain rfl := List.length_eq_zero_iff.mp hcs
    simp only [List.zip_nil_left, List.find?_nil, evalHandlers]
  | .mk name codes body :: rest, [] =>
    simp only [HandlersAt] at hat
    obtain ⟨label, more, k, m, rfl, -⟩ := hat
    cases hcs
  | .mk name codes body :: rest, c :: cs =>
    rw [HandlersAt] at hat
    obtain ⟨label, more, k, m, rfl, ht, hreceive, hbody, hrest⟩ := hat
    have hlen : cs.length = more.length := Nat.succ.inj hcs
    simp only [List.zip_cons_cons, List.find?_cons, evalHandlers]
    by_cases hc : c.accepts e.code
    · simp only [hc, if_true]
      refine ⟨i, ht, receive_sim name h.1 hreceive ?_⟩
      have hbody := block_sim hs body h.2.2.1 hbody hsite
      -- Only the last clause needs no jump over the ones after it.
      by_cases hlast : rest.isEmpty
      · rw [if_pos hlast] at hrest
        obtain ⟨-, rfl⟩ := hrest
        exact hbody
      · rw [if_neg hlast] at hrest
        exact hbody.after (leave_part hrest.1 hfinish)
    · simp only [hc, Bool.false_eq_true, if_false]
      by_cases hlast : rest.isEmpty
      · rw [if_pos hlast] at hrest
        obtain ⟨rfl, rfl⟩ := hrest
        obtain rfl := List.isEmpty_iff.mp hlast
        obtain rfl := List.length_eq_zero_iff.mp hlen
        simp only [List.zip_nil_left, List.find?_nil, evalHandlers]
      · rw [if_neg hlast] at hrest
        exact handlers_sim hs e rest h.2.2.2 hrest.2 hfinish hlen hsite

end

end Lineage.Script
